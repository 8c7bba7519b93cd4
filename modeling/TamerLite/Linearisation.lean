import Mathlib.Algebra.BigOperators.Group.Finset.Piecewise
import Mathlib.Algebra.Order.BigOperators.Group.Finset
import Mathlib.Data.Finset.Max
import TamerLite.PlanNetwork

/-! Firing the events of a path in the order of their times: mutex events keep
the order of the path, so each is applicable and interval conditions hold. -/

namespace TamerLite

open SearchSpace

/-- An action's events open an interval condition before they close it. -/
def Nested (ss : SearchSpace) : Prop := ∀ {a : Action} {le : List (Timing × Event)},
  ss.events a = some le → ∀ k, closed (le.take (k + 1)) ≤ opened (le.take k)

namespace Config

def label (c : Config) (p : ℕ × ℕ) : Action × ℕ := (c.actionOf p.1, p.2)

/-- After the events `l`, instance `j` has opened `x` more often than closed. -/
def OpenFor (ss : SearchSpace) (c : Config) (j : ℕ) (x : Expression) (l : List (ℕ × ℕ)) : Prop :=
  ((l.filter (·.1 = j)).map fun p => closes ss x (c.label p)).sum <
    ((l.filter (·.1 = j)).map fun p => opens ss x (c.label p)).sum

/-- Event `p` writes a fluent of `x`. -/
def Touches (ss : SearchSpace) (c : Config) (x : Expression) (p : ℕ × ℕ) : Prop :=
  ∃ f ∈ getFluents x, f ∈ ss.writes (c.label p).1 (c.label p).2

instance (ss : SearchSpace) (c : Config) (x : Expression) (p : ℕ × ℕ) :
    Decidable (Touches ss c x p) := inferInstanceAs (Decidable (∃ f ∈ getFluents x, _))

/-- Two events that write fluents of an interval condition while it stays open
are mutex. -/
def WritersOrdered (ss : SearchSpace) (c : Config) : Prop :=
  ∀ j x l₁ p l₂ q l₃, c.fired = l₁ ++ p :: (l₂ ++ q :: l₃) →
    (∀ m, l₁ <+: m → m <+: l₁ ++ p :: (l₂ ++ [q]) → OpenFor ss c j x m) →
    Touches ss c x p → Touches ss c x q → ss.mutex (c.label p) (c.label q) = true

end Config

/-- How often `a`, with its events at the given times, has opened `x` before
the next event of a plan, and closed it by the last one. -/
def openedBy (ss : SearchSpace) (x : Expression) (a : Action) (time : ℕ → ℚ) (next : Option ℚ) : ℕ :=
  ∑ k ∈ (Finset.range ((ss.events a).getD []).length).filter fun k => next.all fun u => time k < u,
    opens ss x (a, k)

def closedBy (ss : SearchSpace) (x : Expression) (a : Action) (time : ℕ → ℚ) (last : Option ℚ) : ℕ :=
  ∑ k ∈ (Finset.range ((ss.events a).getD []).length).filter fun k => last.any fun u => time k ≤ u,
    closes ss x (a, k)

section Counts

theorem sum_map_range (g : ℕ → ℕ) (n : ℕ) : ((List.range n).map g).sum = ∑ k ∈ Finset.range n, g k := by
  induction n with
  | zero => rfl
  | succ n ih => rw [List.range_succ, List.map_append, List.sum_append, ih, Finset.sum_range_succ,
      List.map_singleton, List.sum_singleton]

/-- The last event to open a condition in time. -/
theorem exists_opener {ss : SearchSpace} {x : Expression} {a : Action} {time : ℕ → ℚ}
    {next : Option ℚ} (h : 0 < openedBy ss x a time next) : ∃ o < ((ss.events a).getD []).length,
      next.all (fun u => time o < u) = true ∧ 0 < opens ss x (a, o) ∧
      ∀ n, o < n → openedBy ss x a time next ≤ ∑ k ∈ Finset.range n, opens ss x (a, k) := by
  obtain ⟨k, hk, hpos⟩ := Finset.exists_ne_zero_of_sum_ne_zero (Nat.pos_iff_ne_zero.mp h)
  have hne : (((Finset.range ((ss.events a).getD []).length).filter fun k =>
      next.all fun u => time k < u).filter fun k => opens ss x (a, k) ≠ 0).Nonempty :=
    ⟨k, Finset.mem_filter.mpr ⟨hk, hpos⟩⟩
  obtain ⟨ho, hos⟩ := Finset.mem_filter.mp (Finset.max'_mem _ hne)
  obtain ⟨hlen, hall⟩ := Finset.mem_filter.mp ho
  refine ⟨_, Finset.mem_range.mp hlen, hall, Nat.pos_iff_ne_zero.mpr hos, fun n hn => ?_⟩
  apply Finset.sum_le_sum_of_ne_zero
  intro i hi hi0
  have him : i ∈ ((Finset.range ((ss.events a).getD []).length).filter fun k =>
      next.all fun u => time k < u).filter fun k => opens ss x (a, k) ≠ 0 :=
    Finset.mem_filter.mpr ⟨hi, hi0⟩
  exact Finset.mem_range.mpr (lt_of_le_of_lt (Finset.le_max' _ i him) hn)

theorem exists_last {α : Type*} (P : α → Prop) [DecidablePred P] (l : List α) :
    ∃ a b, l = a ++ b ∧ (∀ z ∈ b, ¬ P z) ∧ (a = [] ∨ ∃ a' y, a = a' ++ [y] ∧ P y) := by
  induction l using List.reverseRecOn with
  | nil => exact ⟨[], [], rfl, by simp, .inl rfl⟩
  | append_singleton l z ih =>
    by_cases hz : P z
    · exact ⟨l ++ [z], [], by simp, by simp, .inr ⟨l, z, rfl, hz⟩⟩
    · obtain ⟨a, b, rfl, hb, ha⟩ := ih
      refine ⟨a, b ++ [z], by simp, fun w hw => ?_, ha⟩
      rcases List.mem_append.mp hw with hw | hw
      · exact hb w hw
      · rw [List.mem_singleton.mp hw]
        exact hz

theorem sum_filter_instance {n : ℕ} {l : List (ℕ × ℕ)} (g : ℕ × ℕ → ℕ) (h : ∀ p ∈ l, p.1 < n) :
    (l.map g).sum = ∑ j ∈ Finset.range n, ((l.filter (·.1 = j)).map g).sum := by
  induction l with
  | nil => simp
  | cons p l ih =>
    have hp : p.1 < n := h p List.mem_cons_self
    have hs : ∀ j, (((p :: l).filter (·.1 = j)).map g).sum =
        (if p.1 = j then g p else 0) + ((l.filter (·.1 = j)).map g).sum := by
      intro j
      by_cases hj : p.1 = j
      · simp [hj]
      · simp [hj]
    simp only [hs, List.map_cons, List.sum_cons, Finset.sum_add_distrib, Finset.sum_ite_eq,
      Finset.mem_range, if_pos hp]
    rw [ih fun q hq => h q (List.mem_cons_of_mem _ hq)]

variable {ss : SearchSpace} {a : Action} {le : List (Timing × Event)}

theorem count_take (hle : ss.events a = some le) (g : Event → List Expression) (x : Expression)
    {k : ℕ} (hk : k ≤ le.length) :
    Multiset.count x (Multiset.ofList ((le.take k).flatMap fun te => g te.2)) =
      ((List.range k).map fun i => occurs ss g x (a, i)).sum := by
  induction k with
  | zero => simp
  | succ k ih =>
    have hlt : k < le.length := hk
    rw [List.range_succ, List.map_append, List.sum_append, ← ih (by omega), List.take_add_one,
      List.getElem?_eq_getElem hlt]
    simp only [Option.toList_some, List.flatMap_append, List.flatMap_cons, List.flatMap_nil,
      List.append_nil, ← Multiset.coe_add, Multiset.count_add, List.map_cons, List.map_nil,
      List.sum_cons, List.sum_nil, add_zero, occurs, Config.event_eq hle,
      List.getElem?_eq_getElem hlt]

/-- Up to any of its events, an action opens a condition as often as it closes it. -/
theorem sum_closes_le (hn : Nested ss) (hle : ss.events a = some le) (x : Expression) {k : ℕ}
    (hk : k ≤ le.length) : ((List.range k).map fun i => closes ss x (a, i)).sum ≤
      ((List.range k).map fun i => opens ss x (a, i)).sum := by
  cases k with
  | zero => exact le_rfl
  | succ k =>
    have hc := count_take hle Event.endConditions x hk
    have ho := count_take hle Event.startConditions x (Nat.le_of_succ_le hk)
    have hnest := Multiset.count_le_of_le x (hn hle k)
    have hmono : ((List.range k).map fun i => opens ss x (a, i)).sum ≤
        ((List.range (k + 1)).map fun i => opens ss x (a, i)).sum := by
      rw [List.range_succ, List.map_append, List.sum_append]
      omega
    calc ((List.range (k + 1)).map fun i => closes ss x (a, i)).sum
        = (closed (le.take (k + 1))).count x := hc.symm
      _ ≤ (opened (le.take k)).count x := hnest
      _ = ((List.range k).map fun i => opens ss x (a, i)).sum := ho
      _ ≤ ((List.range (k + 1)).map fun i => opens ss x (a, i)).sum := hmono

end Counts

section Path

variable {ss : SearchSpace} {c c' : Config}

section

variable [Callables]

theorem fired_of_lt (hp : Config.Progress ss c) (hwf : c.WellFormed ss) {p : ℕ × ℕ}
    (h : p ∈ c.fired) {i : ℕ} (hi : i < p.2) : (p.1, i) ∈ c.fired := by
  obtain ⟨hj, hs⟩ := hwf.fired p h
  by_cases hr : c.Running p.1
  · obtain ⟨k, hl⟩ := hr
    have hk := (hp.running hl p.2).mp h
    exact (hp.running hl i).mpr (by omega)
  · apply (hp.done p.1 hj hr i).mpr
    obtain ⟨te, hte⟩ := Option.isSome_iff_exists.mp hs
    obtain ⟨le, hle, hk⟩ := Option.bind_eq_some_iff.mp hte
    have hlt := (List.getElem?_eq_some_iff.mp hk).1
    exact (Config.event_isSome hle).mpr (by omega)

/-- In an initial part of a path, an instance has fired its first events. -/
theorem filter_instance (hp : Config.Progress ss c) (hwf : c.WellFormed ss) {l : List (ℕ × ℕ)}
    (hl : l <+: c.fired) (j : ℕ) : ∃ n, l.filter (·.1 = j) = (List.range n).map (j, ·) := by
  obtain ⟨r, hr⟩ := hl
  have hincr := hp.increasing
  induction l using List.reverseRecOn generalizing r with
  | nil => exact ⟨0, rfl⟩
  | append_singleton l p ih =>
    obtain ⟨n, hn⟩ := ih (p :: r) (by simp [← hr])
    by_cases hj : p.1 = j
    · refine ⟨n + 1, ?_⟩
      have hmem : p ∈ c.fired := by simp [← hr]
      have hbefore : ∀ i, (j, i) ∈ l ↔ i < n := by
        intro i
        have hi : (j, i) ∈ l.filter (·.1 = j) ↔ i < n := by simp [hn]
        simpa using hi
      rw [← hr, List.append_assoc, List.pairwise_append] at hincr
      -- what `j` fired before `p` is exactly what comes before it
      have hle : ∀ i < p.2, i < n := by
        intro i hi
        have hfired : (j, i) ∈ l ++ ([p] ++ r) := by
          rw [← List.append_assoc, hr]
          exact hj ▸ fired_of_lt hp hwf hmem hi
        rcases List.mem_append.mp hfired with h | h
        · exact (hbefore i).mp h
        · rcases List.mem_cons.mp h with h | h
          · rw [← h] at hi
            exact absurd hi (lt_irrefl i)
          · have := (List.pairwise_cons.mp hincr.2.1).1 (j, i) h hj
            simp only at this
            omega
      have hge : ¬ p.2 < n := by
        intro hlt
        have := hincr.2.2 (j, p.2) ((hbefore p.2).mpr hlt) p (by simp) hj.symm
        exact absurd this (lt_irrefl _)
      have hpn : p.2 = n := by
        by_contra hne
        have := hle n (by omega)
        omega
      have hpe : p = (j, n) := Prod.ext hj hpn
      rw [List.filter_append, hn, List.range_succ, List.map_append, hpe]
      simp
    · refine ⟨n, ?_⟩
      rw [List.filter_append, hn]
      simp [hj]

theorem labels_fire {c d : Config} {a : Action} {j k : ℕ} {e : Event} {is : List Instance}
    {todo : AList (fun _ : Action => ℕ × ℕ)}
    (hf : c.fire e (j, k) todo (c.instances ++ is) = some d)
    (hwf : ∀ p ∈ c.fired, p.1 < c.instances.length) (ha : d.actionOf j = a) :
    d.fired.map d.label = c.fired.map c.label ++ [(a, k)] := by
  obtain ⟨removed, as, -, -, -, rfl⟩ := Config.fire_eq_some.mp hf
  have hold : c.fired.map (Config.label ⟨as, todo, removed + e.startConditions,
      c.instances ++ is, c.fired ++ [(j, k)]⟩) = c.fired.map c.label := by
    apply List.map_congr_left
    intro p hp
    simp only [Config.label, Config.actionOf, List.getElem?_append_left (hwf p hp)]
  rw [List.map_append, hold, List.map_singleton, Config.label, ha]

theorem trace_fire {c d : Config} {a : Action} {j k : ℕ} {te : Timing × Event}
    {is : List Instance} {todo : AList (fun _ : Action => ℕ × ℕ)}
    (h : Trace ss (c.fired.map c.label) c.assignments c.active)
    (hev : ss.event a k = some te) (hc : holds te.2.conditions c.assignments = true)
    (hf : c.fire te.2 (j, k) todo (c.instances ++ is) = some d)
    (hwf : ∀ p ∈ c.fired, p.1 < c.instances.length) (ha : d.actionOf j = a) :
    Trace ss (d.fired.map d.label) d.assignments d.active := by
  rw [labels_fire hf hwf ha]
  obtain ⟨removed, as, hr, happ, hall, rfl⟩ := Config.fire_eq_some.mp hf
  exact h.snoc hev hc hr happ hall

theorem trace_step {a : Action} (hwf : c.WellFormed ss)
    (h : Trace ss (c.fired.map c.label) c.assignments c.active) (hs : c.step ss a = some c') :
    Trace ss (c'.fired.map c'.label) c'.assignments c'.active := by
  have hlt : ∀ p ∈ c.fired, p.1 < c.instances.length := fun p hp => (hwf.fired p hp).1
  rcases Config.step_eq_some.mp hs with ⟨le, k, j, te, hle, hl, hte, hc, hf⟩ |
    ⟨le, te, b, hle, -, -, -, hte, hc, -, hf⟩
  · have hev : ss.event a k = some te := (Config.event_eq hle).trans hte
    have hi : c'.instances = c.instances := by
      obtain ⟨_, _, -, -, -, rfl⟩ := Config.fire_eq_some.mp hf
      rfl
    rw [← List.append_nil c.instances] at hf
    apply trace_fire h hev hc hf hlt
    rw [Config.actionOf, hi]
    exact (hwf.todo hl).2.1
  · have hev : ss.event a 0 = some te := (Config.event_eq hle).trans hte
    have hi : c'.instances = c.instances ++ [⟨a, b.1, b.2, false⟩] := by
      obtain ⟨_, _, -, -, -, rfl⟩ := Config.fire_eq_some.mp hf
      rfl
    apply trace_fire h hev hc hf hlt
    simp [Config.actionOf, hi]

theorem actions_run {as : List Action} (hwf : c.WellFormed ss) (hr : c.run ss as = some c') :
    c'.actions = c.actions ++ as := by
  induction as generalizing c with
  | nil =>
    obtain rfl := Option.some.inj hr
    exact (List.append_nil _).symm
  | cons a as ih =>
    obtain ⟨d, hd, hr⟩ := Config.run_cons.mp hr
    have hstep : d.actions = c.actions ++ [a] := by
      have hold : ∀ is, c.fired.map (fun p => Config.actionOf ⟨d.assignments, d.todo, d.active,
          c.instances ++ is, d.fired⟩ p.1) = c.actions := by
        intro is
        apply List.map_congr_left
        intro p hp
        simp only [Config.actionOf, List.getElem?_append_left (hwf.fired p hp).1]
      rcases Config.step_eq_some.mp hd with ⟨le, k, j, te, -, hl, -, -, hf⟩ |
        ⟨le, te, b, -, -, -, -, -, -, -, hf⟩
      · obtain ⟨_, _, -, -, -, rfl⟩ := Config.fire_eq_some.mp hf
        have ha := (hwf.todo hl).2.1
        simp only [Config.actions, List.map_append, List.map_singleton]
        rw [← ha]
        rfl
      · obtain ⟨_, _, -, -, -, rfl⟩ := Config.fire_eq_some.mp hf
        have h := hold [⟨a, b.1, b.2, false⟩]
        simp only [Config.actions, Config.actionOf, List.map_append, List.map_singleton] at h ⊢
        rw [h]
        simp
    rw [ih (hwf.step hd) hr, hstep, List.append_assoc, List.singleton_append]

theorem trace_initial (h : Config.initial ss = some c) :
    Trace ss (c.fired.map c.label) c.assignments c.active := by
  rcases Config.initial_eq_some.mp h with ⟨-, rfl⟩ | ⟨a, le, te, b, -, hle, hte, hc, -, hf⟩
  · exact .nil
  · have hev : ss.event a 0 = some te := (Config.event_eq hle).trans hte
    have hi : c.instances = [⟨a, b.1, b.2, true⟩] := by
      obtain ⟨_, _, -, -, -, rfl⟩ := Config.fire_eq_some.mp hf
      rfl
    have ha : c.actionOf 0 = a := by simp [Config.actionOf, hi]
    rw [← List.nil_append [_]] at hf
    exact trace_fire (c := ⟨ss.initialState, ∅, 0, [], []⟩) .nil hev hc hf (by simp) ha

theorem trace_run {as : List Action} (h : Config.initial ss = some c)
    (hr : c.run ss as = some c') : Trace ss (c'.fired.map c'.label) c'.assignments c'.active := by
  induction as using List.reverseRecOn generalizing c' with
  | nil =>
    obtain rfl := Option.some.inj hr
    exact trace_initial h
  | append_singleton as a ih =>
    obtain ⟨d, hd, hs⟩ := Config.run_concat.mp hr
    exact trace_step ((Config.wellFormed_initial h).run hd) (ih hd) hs

/-- The events of a path in an order of non-decreasing times, which keep what
the network of a plan says. -/
structure Reordered (ss : SearchSpace) (c : Config) (t : ℕ × ℕ → ℚ) (l : List (ℕ × ℕ)) : Prop where
  positive : 0 < ss.epsilon
  follows : c.fired.Pairwise (PlanFollows ss c t)
  perm : l.Perm c.fired
  sorted : l.Pairwise fun p q => t p ≤ t q

theorem nodup_fired (hp : Config.Progress ss c) : c.fired.Nodup := by
  refine hp.increasing.imp fun {p q} h he => ?_
  subst he
  exact absurd (h rfl) (lt_irrefl _)

/-- The effects of the events of a path. -/
abbrev pathEffects (ss : SearchSpace) (c : Config) :
    Reordering.Effects (ℕ × ℕ) Fluent (Option ConstantNode) := (eventEffects ss).comap c.label

end

namespace Reordered

variable {t : ℕ × ℕ → ℚ} {l l₁ l₂ p r : List (ℕ × ℕ)} {y z : ℕ × ℕ}

theorem planFollows (h : Reordered ss c t l) (hs : c.fired = l₁ ++ y :: l₂) (hz : z ∈ l₂) :
    PlanFollows ss c t y z := by
  have hf := h.follows
  rw [hs, List.pairwise_append] at hf
  exact (List.pairwise_cons.mp hf.2.1).1 z hz

/-- Whatever is later than an event of `p` comes after `p`. -/
theorem mem_of_lt (h : Reordered ss c t (p ++ r)) (hz : z ∈ c.fired) (hy : y ∈ p) (hlt : t z < t y) :
    z ∈ p := by
  have hs := h.sorted
  rw [List.pairwise_append] at hs
  rcases List.mem_append.mp (h.perm.mem_iff.mpr hz) with hzp | hzr
  · exact hzp
  · exact absurd (hs.2.2 y hy z hzr) (not_le.mpr hlt)

theorem reads_conditions {q : Action × ℕ} {te : Timing × Event} (hev : ss.event q.1 q.2 = some te)
    {f : Fluent} (hf : f ∈ getFluents te.2.conditions) : f ∈ ss.reads q.1 q.2 := by
  simp only [SearchSpace.reads, hev, List.mem_append]
  exact .inl (.inl hf)

theorem reads_effects {q : Action × ℕ} {te : Timing × Event} (hev : ss.event q.1 q.2 = some te)
    {eff : Effect} (he : eff ∈ te.2.effects) {f : Fluent} (hf : f ∈ getFluents eff.value) :
    f ∈ ss.reads q.1 q.2 := by
  simp only [SearchSpace.reads, hev, List.mem_append, List.mem_flatMap]
  exact .inl (.inr ⟨eff, he, hf⟩)

theorem mem_of_lt_next (h : Reordered ss c t (p ++ r)) (hz : z ∈ c.fired)
    (hnext : (r.head?.map t).all (fun u => t z < u) = true) : z ∈ p := by
  have hs := h.sorted
  rw [List.pairwise_append] at hs
  rcases List.mem_append.mp (h.perm.mem_iff.mpr hz) with hzp | hzr
  · exact hzp
  · cases r with
    | nil => exact absurd hzr List.not_mem_nil
    | cons y r =>
      simp only [List.head?_cons, Option.map_some, Option.all_some, decide_eq_true_eq] at hnext
      rcases List.mem_cons.mp hzr with rfl | hzr
      · exact absurd hnext (lt_irrefl _)
      · exact absurd ((List.pairwise_cons.mp hs.2.1).1 z hzr) (not_le.mpr hnext)

theorem le_last (h : Reordered ss c t (p ++ r)) (hz : z ∈ p) {u : ℚ} (hu : u ≤ t z) :
    (p.getLast?.map t).any (fun v => u ≤ v) = true := by
  have hs := (List.pairwise_append.mp h.sorted).1
  cases hl : p.getLast? with
  | none =>
    rw [List.getLast?_eq_none_iff.mp hl] at hz
    exact absurd hz List.not_mem_nil
  | some y =>
    obtain ⟨q, hq⟩ := List.getLast?_eq_some_iff.mp hl
    have hzy : t z ≤ t y := by
      rw [hq, List.pairwise_append] at hs
      rw [hq] at hz
      rcases List.mem_append.mp hz with hz | hz
      · exact hs.2.2 z hz y (by simp)
      · rw [List.mem_singleton.mp hz]
    simpa using hu.trans hzy

theorem precedence_of_start {q q' : Action × ℕ} {x : Expression} {f : Fluent}
    (hx : 0 < opens ss x q') (hf : f ∈ getFluents x) (hw : f ∈ ss.writes q.1 q.2) :
    ss.precedence q q' = true := by
  unfold opens occurs at hx
  split at hx
  · exact absurd hx (lt_irrefl 0)
  · next te hev =>
    have hmem : x ∈ te.2.startConditions := Multiset.mem_coe.mp (Multiset.count_pos.mp hx)
    unfold SearchSpace.precedence
    split_ifs
    · rfl
    · simp only [Bool.not_eq_true', Bool.and_eq_false_iff, isDisjoint, List.all_eq_false,
        decide_eq_true_eq, not_not]
      refine .inl ⟨f, hw, ?_⟩
      simp only [startCondReads, hev, List.mem_flatMap]
      exact ⟨x, hmem, hf⟩

theorem precedence_of_end {q q' : Action × ℕ} {x : Expression} {f : Fluent}
    (hx : 0 < closes ss x q) (hf : f ∈ getFluents x) (hw : f ∈ ss.writes q'.1 q'.2) :
    ss.precedence q q' = true := by
  unfold closes occurs at hx
  split at hx
  · exact absurd hx (lt_irrefl 0)
  · next te hev =>
    have hmem : x ∈ te.2.endConditions := Multiset.mem_coe.mp (Multiset.count_pos.mp hx)
    unfold SearchSpace.precedence
    split_ifs
    · rfl
    · simp only [Bool.not_eq_true', Bool.and_eq_false_iff, isDisjoint, List.all_eq_false,
        decide_eq_true_eq, not_not]
      refine .inr ⟨f, hw, ?_⟩
      simp only [endCondReads, hev, List.mem_flatMap]
      exact ⟨x, hmem, hf⟩

theorem lt_of_mutex (h : Reordered ss c t l) (hs : c.fired = l₁ ++ y :: l₂) (hz : z ∈ l₂)
    (hm : ss.mutex (c.label y) (c.label z) = true) : t y < t z := by
  have hle := (h.planFollows hs hz).1 (by rw [Schedule.mutex, mutex_comm]; exact hm)
  have := h.positive
  linarith

/-- The events fired so far that touch the condition are those of an initial
part of the path in which it is open. -/
theorem mem_iff_of_touches {x : Expression} {j o : ℕ} {m d : List (ℕ × ℕ)}
    (h : Reordered ss c t (p ++ r)) (hw : c.WritersOrdered ss)
    (hs : c.fired = l₁ ++ (j, o) :: (m ++ d)) (ho : (j, o) ∈ p)
    (hnext : (r.head?.map t).all (fun u => t (j, o) < u) = true)
    (hpos : 0 < opens ss x (c.actionOf j, o))
    (hm : m = [] ∨ ∃ m' y, m = m' ++ [y] ∧ y ∈ p ∧ c.Touches ss x y)
    (hd : ∀ z ∈ d, ¬ (z ∈ p ∧ c.Touches ss x z))
    (hopen : ∀ q, l₁ ++ [(j, o)] <+: q → q <+: l₁ ++ (j, o) :: m → c.OpenFor ss j x q)
    (hz : c.Touches ss x z) : z ∈ p ↔ z ∈ l₁ ++ (j, o) :: m := by
  constructor
  · intro hzp
    have hzf : z ∈ (l₁ ++ (j, o) :: m) ++ d := by
      have hzf := h.perm.mem_iff.mp (List.mem_append_left r hzp)
      rw [hs] at hzf
      simpa using hzf
    rcases List.mem_append.mp hzf with hz₁ | hz₂
    · exact hz₁
    · exact absurd ⟨hzp, hz⟩ (hd z hz₂)
  · intro hzc
    have hzf : z ∈ c.fired := by
      rw [hs]
      have hsub : z ∈ (l₁ ++ (j, o) :: m) ++ d := List.mem_append_left d hzc
      simpa using hsub
    rcases List.mem_append.mp hzc with hz₁ | hz₂
    · obtain ⟨a, b, rfl⟩ := List.append_of_mem hz₁
      have hs' : c.fired = a ++ z :: (b ++ (j, o) :: (m ++ d)) := by simp [hs]
      obtain ⟨f, hf, hwf⟩ := hz
      have hle := (h.planFollows hs' (z := (j, o)) (by simp)).2
        (precedence_of_start (q := c.label z) hpos hf hwf)
      apply h.mem_of_lt_next hzf
      cases hr : r.head?.map t with
      | none => rfl
      | some u =>
        rw [hr] at hnext
        simp only [Option.all_some, decide_eq_true_eq] at hnext ⊢
        exact lt_of_le_of_lt hle hnext
    · rcases List.mem_cons.mp hz₂ with rfl | hz₂
      · exact ho
      · rcases hm with rfl | ⟨m', y, rfl, hy, hty⟩
        · exact absurd hz₂ List.not_mem_nil
        · rcases List.mem_append.mp hz₂ with hz₂ | hz₂
          · obtain ⟨a, b, rfl⟩ := List.append_of_mem hz₂
            have hs' : c.fired = (l₁ ++ (j, o) :: a) ++ z :: (b ++ y :: d) := by simp [hs]
            have hmutex := hw j x _ z b y d hs' (fun q hq₁ hq₂ => hopen q ?_ ?_) hz hty
            · exact h.mem_of_lt hzf hy (h.lt_of_mutex hs' (by simp) hmutex)
            · refine List.IsPrefix.trans ⟨a, by simp⟩ hq₁
            · refine hq₂.trans ⟨[], by simp⟩
          · rw [List.mem_singleton.mp hz₂]
            exact hy

variable [Callables]

theorem respects (h : Reordered ss c t (p ++ r)) (hp : Config.Progress ss c) :
    (pathEffects ss c).Respects c.fired p := by
  have hn := nodup_fired hp
  have hn' : (p ++ r).Nodup := h.perm.nodup_iff.mpr hn
  intro p₁ y p₂ l₁ l₂ hps hs x hdep
  have hm : ss.mutex (c.label x) (c.label y) = true := mutex_of_dependent hdep
  have hsort := h.sorted
  rw [hps, List.append_assoc, List.pairwise_append] at hsort
  rw [hps, List.append_assoc, List.nodup_append] at hn'
  constructor
  · intro hx
    have hxf : x ∈ l₁ ++ y :: l₂ := by
      rw [← hs]
      exact h.perm.mem_iff.mp (by simp [hps, hx])
    rcases List.mem_append.mp hxf with hx₁ | hx₂
    · exact hx₁
    · rcases List.mem_cons.mp hx₂ with rfl | hx₂
      · exact absurd rfl (hn'.2.2 x hx x (by simp))
      · have hlt := h.lt_of_mutex hs hx₂ (by rw [mutex_comm]; exact hm)
        exact absurd (hsort.2.2 x hx y (by simp)) (not_le.mpr hlt)
  · intro hx
    obtain ⟨m₁, m₂, rfl⟩ := List.append_of_mem hx
    have hs' : c.fired = m₁ ++ x :: (m₂ ++ y :: l₂) := by simp [hs]
    have hlt := h.lt_of_mutex hs' (by simp) hm
    have hsplit : p ++ r = p₁ ++ (y :: (p₂ ++ r)) := by simp [hps]
    rcases List.mem_append.mp (hsplit ▸ h.perm.mem_iff.mpr (by simp [hs'] : x ∈ c.fired)) with
      hx₁ | hx₂
    · exact hx₁
    · rcases List.mem_cons.mp hx₂ with rfl | hx₂
      · exact absurd hlt (lt_irrefl _)
      · exact absurd ((List.pairwise_cons.mp hsort.2.1).1 x hx₂) (not_le.mpr hlt)

/-- Every event is applicable where the order puts it, and does there what it
does in the path. -/
theorem execute (h : Reordered ss c t (p ++ r)) (hp : Config.Progress ss c)
    (htr : Trace ss (c.fired.map c.label) c.assignments c.active) :
    ∃ a, TamerLite.execute ss (p.map c.label) = some a ∧
      getValue a = (pathEffects ss c).exec p (getValue ss.initialState) := by
  induction p using List.reverseRecOn generalizing r with
  | nil => exact ⟨ss.initialState, rfl, rfl⟩
  | append_singleton p y ih =>
    have hsplit : p ++ [y] ++ r = p ++ y :: r := by simp
    obtain ⟨a, ha, hget⟩ := ih (hsplit ▸ h)
    have hy : y ∈ c.fired := h.perm.mem_iff.mp (by simp)
    obtain ⟨l₁, l₂, hs⟩ := List.append_of_mem hy
    rw [hs, List.map_append, List.map_cons] at htr
    obtain ⟨a₁, active₁, te, a₂, htr₁, hev, hc, happ⟩ := htr.before
    have hn := nodup_fired hp
    have hn' : (p ++ [y]).Nodup := (List.nodup_append.mp (h.perm.nodup_iff.mpr hn)).1
    have hsame : ∀ f ∈ ss.reads (c.label y).1 (c.label y).2, getValue a f = getValue a₁ f := by
      intro f hf
      rw [hget, htr₁.getValue_eq, ← Reordering.Effects.exec_comap]
      exact Reordering.Effects.exec_eq_before hn hn' (h.respects hp) hs (.inl hf)
    have hc' : holds te.2.conditions a = true := by
      rw [holds_congr fun f hf => hsame f (reads_conditions hev hf)]
      exact hc
    obtain ⟨a', ha'⟩ := exists_applyEffects a fun eff he => by
      rw [evaluate_congr fun f hf => hsame f (reads_effects hev he hf)]
      exact evaluate_isSome_of_applyEffects happ eff he
    refine ⟨a', ?_, ?_⟩
    · rw [List.map_append, List.map_singleton, execute_concat, ha]
      simp [executeEvent, hev, hc', ha']
    · rw [Reordering.Effects.exec_concat, ← hget, applyEffects_getValue ha']
      simp only [Reordering.Effects.comap, eventEffects, hev]

theorem getValue_final (h : Reordered ss c t l) (hp : Config.Progress ss c)
    (htr : Trace ss (c.fired.map c.label) c.assignments c.active) {a : Assignments}
    (ha : TamerLite.execute ss (l.map c.label) = some a) (f : Fluent) :
    getValue a f = getValue c.assignments f := by
  have h' : Reordered ss c t (l ++ []) := by rwa [List.append_nil]
  obtain ⟨a', ha', hget⟩ := h'.execute hp htr
  obtain rfl := Option.some.inj (ha.symm.trans ha')
  have hn := nodup_fired hp
  rw [hget, htr.getValue_eq, ← Reordering.Effects.exec_comap]
  apply Reordering.Effects.exec_eq hn (h.perm.nodup_iff.mpr hn) (h'.respects hp)
    (List.append_nil _).symm
  exact fun x _ => h.perm.mem_iff

/-- The counts of an instance in an initial part of a path. -/
theorem sum_instance (hp : Config.Progress ss c) (hwf : c.WellFormed ss) {m : List (ℕ × ℕ)}
    (hm : m <+: c.fired) (j : ℕ) : ∃ n, (∀ k, (j, k) ∈ m ↔ k < n) ∧
      ∀ g : Action × ℕ → ℕ, ((m.filter (·.1 = j)).map fun p => g (c.label p)).sum =
        ∑ k ∈ Finset.range n, g (c.actionOf j, k) := by
  obtain ⟨n, hn⟩ := filter_instance hp hwf hm j
  refine ⟨n, fun k => ?_, fun g => ?_⟩
  · have hk : (j, k) ∈ m.filter (·.1 = j) ↔ k < n := by simp [hn]
    simpa using hk
  · rw [hn, List.map_map, ← sum_map_range]
    rfl

/-- A condition an instance has open is active. -/
theorem mem_active (hp : Config.Progress ss c) (hwf : c.WellFormed ss) (hnest : Nested ss)
    {m : List (ℕ × ℕ)} (hm : m <+: c.fired) {j : ℕ} (hj : j < c.instances.length) {x : Expression}
    (hopen : c.OpenFor ss j x m) {a : Assignments} {active : Multiset Expression}
    (htr : Trace ss (m.map c.label) a active) : x ∈ active := by
  have hlt : ∀ p ∈ m, p.1 < c.instances.length := fun p hpm => (hwf.fired p (hm.subset hpm)).1
  have hcount := htr.count_active x
  have hle : ∀ i ∈ Finset.range c.instances.length,
      ((m.filter (·.1 = i)).map fun p => closes ss x (c.label p)).sum ≤
        ((m.filter (·.1 = i)).map fun p => opens ss x (c.label p)).sum := by
    intro i hi
    obtain ⟨n, hmem, hsum⟩ := sum_instance hp hwf hm i
    rw [hsum, hsum, ← sum_map_range, ← sum_map_range]
    cases hev : ss.events (c.actionOf i) with
    | none => simp [closes, occurs, SearchSpace.event, hev]
    | some le =>
      apply sum_closes_le hnest hev
      by_contra hn
      have hfired := hm.subset ((hmem le.length).mpr (by omega))
      have hs := (Config.event_isSome hev).mp (hwf.fired _ hfired).2
      exact absurd hs (lt_irrefl _)
  have htotal : (m.map fun p => closes ss x (c.label p)).sum <
      (m.map fun p => opens ss x (c.label p)).sum := by
    rw [sum_filter_instance _ hlt, sum_filter_instance _ hlt]
    exact Finset.sum_lt_sum hle ⟨j, Finset.mem_range.mpr hj, hopen⟩
  rw [List.map_map, List.map_map] at hcount
  have hpos : 0 < active.count x := by
    have hc : (m.map (closes ss x ∘ c.label)).sum < (m.map (opens ss x ∘ c.label)).sum := htotal
    omega
  exact Multiset.count_pos.mp hpos

section Interval

variable {x : Expression} {j o : ℕ} {m d : List (ℕ × ℕ)}

/-- From the event that opens a condition to the last fired one that writes a
fluent of it, the condition is open in the path too. -/
theorem openFor (h : Reordered ss c t (p ++ r)) (hp : Config.Progress ss c)
    (hwf : c.WellFormed ss) (hs : c.fired = l₁ ++ (j, o) :: (m ++ d)) (ho : (j, o) ∈ p)
    (hopen : ∀ n, o < n → openedBy ss x (c.actionOf j) (fun k => t (j, k)) (r.head?.map t) ≤
      ∑ k ∈ Finset.range n, opens ss x (c.actionOf j, k))
    (hreq : closedBy ss x (c.actionOf j) (fun k => t (j, k)) (p.getLast?.map t) <
      openedBy ss x (c.actionOf j) (fun k => t (j, k)) (r.head?.map t))
    (hm : m = [] ∨ ∃ m' y, m = m' ++ [y] ∧ y ∈ p ∧ c.Touches ss x y) {q : List (ℕ × ℕ)}
    (hl : l₁ ++ [(j, o)] <+: q) (hq : q <+: l₁ ++ (j, o) :: m) : c.OpenFor ss j x q := by
  have hqf : q <+: c.fired := hq.trans ⟨d, by simp [hs]⟩
  obtain ⟨n, hmem, hsum⟩ := sum_instance hp hwf hqf j
  have hon : o < n := (hmem o).mp (hl.subset (by simp))
  rw [Config.OpenFor, hsum, hsum]
  refine lt_of_le_of_lt ?_ (lt_of_lt_of_le hreq (hopen n hon))
  apply Finset.sum_le_sum_of_ne_zero
  intro k hk hk0
  have hkq : (j, k) ∈ q := (hmem k).mpr (Finset.mem_range.mp hk)
  have hkf := hwf.fired _ (hqf.subset hkq)
  have hkc := hq.subset hkq
  -- a closing event fires no later than the last event that touches the condition
  have hlast : ∃ z ∈ p, t (j, k) ≤ t z := by
    have hfirst : (j, k) ∈ l₁ → t (j, k) ≤ t (j, o) := by
      intro hk₁
      obtain ⟨a, b, hab⟩ := List.append_of_mem hk₁
      have hs' : c.fired = a ++ (j, k) :: (b ++ (j, o) :: (m ++ d)) := by simp [hs, hab]
      exact (h.lt_of_mutex hs' (by simp) (by simp [SearchSpace.mutex, Config.label])).le
    rcases List.mem_append.mp hkc with hk₁ | hk₂
    · exact ⟨(j, o), ho, hfirst hk₁⟩
    · rcases List.mem_cons.mp hk₂ with hk₂ | hk₂
      · exact ⟨(j, o), ho, by rw [hk₂]⟩
      · rcases hm with rfl | ⟨m', y, rfl, hy, f, hf, hw⟩
        · exact absurd hk₂ List.not_mem_nil
        · rcases List.mem_append.mp hk₂ with hk₂ | hk₂
          · obtain ⟨a, b, rfl⟩ := List.append_of_mem hk₂
            have hs' : c.fired = (l₁ ++ (j, o) :: a) ++ (j, k) :: (b ++ y :: d) := by simp [hs]
            refine ⟨y, hy, (h.planFollows hs' (by simp)).2 ?_⟩
            exact precedence_of_end (Nat.pos_iff_ne_zero.mpr hk0) hf hw
          · exact ⟨y, hy, by rw [List.mem_singleton.mp hk₂]⟩
  obtain ⟨z, hz, hkz⟩ := hlast
  refine Finset.mem_filter.mpr ⟨Finset.mem_range.mpr ?_, h.le_last hz hkz⟩
  obtain ⟨te, hte⟩ := Option.isSome_iff_exists.mp hkf.2
  obtain ⟨le, hle, hget⟩ := Option.bind_eq_some_iff.mp hte
  have hlt := (List.getElem?_eq_some_iff.mp hget).1
  simpa [hle] using hlt

/-- An interval condition holds throughout, whatever the order of the events
that are not ordered by the network. -/
theorem holds_interval (h : Reordered ss c t (p ++ r)) (hp : Config.Progress ss c)
    (hwf : c.WellFormed ss) (htr : Trace ss (c.fired.map c.label) c.assignments c.active)
    (hnest : Nested ss) (hw : c.WritersOrdered ss)
    (hdone : ∀ k, (ss.event (c.actionOf j) k).isSome → (j, k) ∈ c.fired)
    (hj : j < c.instances.length)
    (hreq : closedBy ss x (c.actionOf j) (fun k => t (j, k)) (p.getLast?.map t) <
      openedBy ss x (c.actionOf j) (fun k => t (j, k)) (r.head?.map t))
    {a : Assignments} (ha : TamerLite.execute ss (p.map c.label) = some a) : holds x a = true := by
  obtain ⟨o, hlen, hnext, hpos, hopen⟩ := exists_opener (Nat.zero_lt_of_lt hreq)
  have hof : (j, o) ∈ c.fired := by
    apply hdone
    cases hev : ss.events (c.actionOf j) with
    | none => simp [hev] at hlen
    | some le => exact (Config.event_isSome hev).mpr (by simpa [hev] using hlen)
  have ho : (j, o) ∈ p := h.mem_of_lt_next hof hnext
  obtain ⟨l₁, l₂, hs⟩ := List.append_of_mem hof
  obtain ⟨m, d, rfl, hd, hm⟩ := exists_last (fun z => z ∈ p ∧ c.Touches ss x z) l₂
  have hopenFor : ∀ q, l₁ ++ [(j, o)] <+: q → q <+: l₁ ++ (j, o) :: m → c.OpenFor ss j x q :=
    fun q hq₁ hq₂ => h.openFor hp hwf hs ho hopen hreq hm hq₁ hq₂
  have hcut : l₁ ++ (j, o) :: m <+: c.fired := ⟨d, by simp [hs]⟩
  have hsplit : c.fired = (l₁ ++ (j, o) :: m) ++ d := by simp [hs]
  obtain ⟨a', ha', hget⟩ := h.execute hp htr
  obtain rfl := Option.some.inj (ha.symm.trans ha')
  rw [hsplit, List.map_append] at htr
  obtain ⟨a₁, active, htr₁⟩ := htr.of_append
  have hact := mem_active hp hwf hnest hcut hj
    (hopenFor _ ⟨m, by simp⟩ (List.prefix_refl _)) htr₁
  rw [← htr₁.holds x hact]
  apply holds_congr
  intro f hf
  have hn := nodup_fired hp
  have hn' : p.Nodup := (List.nodup_append.mp (h.perm.nodup_iff.mpr hn)).1
  rw [hget, htr₁.getValue_eq, ← Reordering.Effects.exec_comap]
  apply Reordering.Effects.exec_eq hn hn' (h.respects hp) hsplit
  intro z hz
  exact h.mem_iff_of_touches hw hs ho hnext hpos hm hd hopenFor ⟨f, hf, hz⟩

end Interval

end Reordered

end Path

end TamerLite
