import TamerLite.Firing

/-! Which schedules a configuration has, event by event: firing one keeps the
schedules that also put it behind the past events and before the pending ones. -/

namespace TamerLite

open Difference SearchSpace

theorem mutex_comm {ss : SearchSpace} (p q : Action × ℕ) : ss.mutex p q = ss.mutex q p := by
  have hd : ∀ l l' : List Fluent, isDisjoint l l' = isDisjoint l' l := by
    intro l l'
    rw [Bool.eq_iff_iff]
    simp only [isDisjoint, List.all_eq_true, decide_eq_true_eq]
    exact ⟨fun h f hf hf' => h f hf' hf, fun h f hf hf' => h f hf' hf⟩
  have ha : ∀ l l' m : List Fluent, isDisjoint (l ++ l') m = (isDisjoint l m && isDisjoint l' m) := by
    simp [isDisjoint, List.all_append]
  unfold mutex
  by_cases h : p.1 = q.1
  · simp [h]
  · rw [if_neg h, if_neg (Ne.symm h), ha, ha, hd (ss.writes q.1 q.2) (ss.writes p.1 p.2)]
    rw [← Bool.and_assoc, ← Bool.and_assoc,
      Bool.and_comm (isDisjoint (ss.reads q.1 q.2) _)]

namespace Schedule

variable {ss : SearchSpace} {c c' : Config} {σ : Schedule}

theorem mem_pending {ss : SearchSpace} {c : Config} {q : ℕ × ℕ} : q ∈ pending ss c ↔
    ∃ a k i, c.todo.lookup a = some (k, q.1) ∧ q.2 = k + i ∧ (ss.event a (k + i)).isSome := by
  obtain ⟨j, l⟩ := q
  simp only [pending, List.mem_flatMap, List.mem_map, List.mem_range, List.length_drop,
    Prod.mk.injEq]
  constructor
  · rintro ⟨⟨a, k, j⟩, he, i, hi, rfl, rfl⟩
    refine ⟨a, k, i, AList.mem_lookup_iff.mpr he, rfl, ?_⟩
    cases hev : ss.events a with
    | none => simp [hev] at hi
    | some le => exact (Config.event_isSome hev).mpr (by simp [hev] at hi; omega)
  · rintro ⟨a, k, i, hl, rfl, hi⟩
    refine ⟨⟨a, k, j⟩, AList.mem_lookup_iff.mp hl, i, ?_, rfl, rfl⟩
    cases hev : ss.events a with
    | none => simp [SearchSpace.event, hev] at hi
    | some le =>
      rw [Config.event_isSome hev] at hi
      simp only [Option.getD_some]
      omega

theorem time_congr {p : ℕ × ℕ} (h : c'.actionOf p.1 = c.actionOf p.1) :
    time ss c' σ p = time ss c σ p := by
  simp only [time, h]

theorem mutex_congr {p q : ℕ × ℕ} (hp : c'.actionOf p.1 = c.actionOf p.1)
    (hq : c'.actionOf q.1 = c.actionOf q.1) : mutex ss c' p q ↔ mutex ss c p q := by
  simp only [mutex, hp, hq]

theorem follows_congr {p q : ℕ × ℕ} (hp : c'.actionOf p.1 = c.actionOf p.1)
    (hq : c'.actionOf q.1 = c.actionOf q.1) :
    Follows (mutex ss c') ss.epsilon (time ss c' σ) p q ↔
      Follows (mutex ss c) ss.epsilon (time ss c σ) p q := by
  simp only [Follows, mutex_congr hp hq, time_congr hp, time_congr hq]

theorem mutex_same {p q : ℕ × ℕ} (h : c.actionOf p.1 = c.actionOf q.1) : mutex ss c p q := by
  simp [mutex, SearchSpace.mutex, h]

theorem actionOf_pending [Callables] (hwf : c.WellFormed ss) {q : ℕ × ℕ} (hq : q ∈ pending ss c) :
    q.1 < c.instances.length ∧ (ss.event (c.actionOf q.1) q.2).isSome := by
  obtain ⟨a, k, i, hl, hk, hi⟩ := mem_pending.mp hq
  have hj := hwf.todo hl
  rw [hk, hj.2.1]
  exact ⟨hj.1, hi⟩

theorem valid_iff {ss : SearchSpace} {c : Config} {σ : Schedule} : Valid ss c σ ↔
    (∀ j, ∀ h : j < c.instances.length,
      c.instances[j].lower ≤ (σ j).2 - (σ j).1 ∧ (σ j).2 - (σ j).1 ≤ c.instances[j].upper) ∧
    (∀ j, ∀ h : j < c.instances.length,
      if c.instances[j].pinned then (σ j).1 = 0 else 0 ≤ (σ j).1) ∧
    c.fired.Pairwise (Follows (mutex ss c) ss.epsilon (time ss c σ)) ∧
    ∀ p ∈ c.fired, ∀ q ∈ Schedule.pending ss c,
      Follows (mutex ss c) ss.epsilon (time ss c σ) p q := by
  constructor
  · intro h
    exact ⟨fun j hj => h.bounds j _ (List.getElem?_eq_getElem hj),
      fun j hj => h.origin j _ (List.getElem?_eq_getElem hj), h.ordered, h.pending⟩
  · intro h
    obtain ⟨hb, ho, hord, hp⟩ := h
    refine ⟨fun j i hi => ?_, fun j i hi => ?_, hord, hp⟩
    · obtain ⟨hj, rfl⟩ := List.getElem?_eq_some_iff.mp hi
      exact hb j hj
    · obtain ⟨hj, rfl⟩ := List.getElem?_eq_some_iff.mp hi
      exact ho j hj

instance {ss : SearchSpace} {c : Config} {σ : Schedule} : Decidable (Valid ss c σ) :=
  decidable_of_iff' _ valid_iff

instance {ss : SearchSpace} {c : Config} {σ : Schedule} : Decidable (MeetsDeadline ss c σ) :=
  match hd : ss.deadline with
  | none => isTrue fun d h => by rw [hd] at h; contradiction
  | some d => decidable_of_iff (∀ j < c.instances.length, (σ j).2 + ss.epsilon ≤ d)
      ⟨fun h d' hd' => by rwa [← Option.some.inj (hd.symm.trans hd')], fun h => h d hd⟩

/-- Only the placed instances matter. -/
theorem valid_congr [Callables] {σ' : Schedule} (hwf : c.WellFormed ss)
    (h : ∀ j < c.instances.length, σ' j = σ j) : Valid ss c σ' ↔ Valid ss c σ := by
  have ht : ∀ {p : ℕ × ℕ}, p.1 < c.instances.length → time ss c σ' p = time ss c σ p :=
    fun hp => by simp only [time, h _ hp]
  have hj : ∀ {j i}, c.instances[j]? = some i → σ' j = σ j :=
    fun hj => h _ (List.getElem?_eq_some_iff.mp hj).1
  have hfol : ∀ {p q : ℕ × ℕ}, p.1 < c.instances.length → q.1 < c.instances.length →
      (Follows (mutex ss c) ss.epsilon (time ss c σ') p q ↔
        Follows (mutex ss c) ss.epsilon (time ss c σ) p q) :=
    fun hp hq => by simp only [Follows, ht hp, ht hq]
  have hf := fun p hp => (hwf.fired p hp).1
  have hq := fun q hq => (actionOf_pending hwf (q := q) hq).1
  constructor
  · intro hv
    exact ⟨fun j i hi => hj hi ▸ hv.bounds j i hi, fun j i hi => hj hi ▸ hv.origin j i hi,
      hv.ordered.imp_of_mem fun hp hq => (hfol (hf _ hp) (hf _ hq)).mp,
      fun p hp q hqm => (hfol (hf p hp) (hq q hqm)).mp (hv.pending p hp q hqm)⟩
  · intro hv
    exact ⟨fun j i hi => (hj hi).symm ▸ hv.bounds j i hi,
      fun j i hi => (hj hi).symm ▸ hv.origin j i hi,
      hv.ordered.imp_of_mem fun hp hq => (hfol (hf _ hp) (hf _ hq)).mpr,
      fun p hp q hqm => (hfol (hf p hp) (hq q hqm)).mpr (hv.pending p hp q hqm)⟩

/-- An event fired next, with the running actions as they were. -/
theorem valid_append_iff {p : ℕ × ℕ} (hi : c'.instances = c.instances) (ht : c'.todo = c.todo)
    (hf : c'.fired = c.fired ++ [p]) : Valid ss c' σ ↔ Valid ss c σ ∧
      (∀ q ∈ c.fired, Follows (mutex ss c) ss.epsilon (time ss c σ) q p) ∧
      ∀ q ∈ pending ss c, Follows (mutex ss c) ss.epsilon (time ss c σ) p q := by
  have ha : ∀ j', c'.actionOf j' = c.actionOf j' := fun j' => by simp only [Config.actionOf, hi]
  have hfol : ∀ p q, Follows (mutex ss c') ss.epsilon (time ss c' σ) p q ↔
      Follows (mutex ss c) ss.epsilon (time ss c σ) p q := fun p q => follows_congr (ha _) (ha _)
  have hpend : pending ss c' = pending ss c := by simp only [pending, ht]
  constructor
  · intro h
    have hord := h.ordered
    rw [hf, List.pairwise_append] at hord
    refine ⟨⟨by simpa only [hi] using h.bounds, by simpa only [hi] using h.origin,
      hord.1.imp (hfol _ _).mp, fun q hq r hr => ?_⟩, fun q hq => ?_, fun q hq => ?_⟩
    · exact (hfol _ _).mp (h.pending q (by simp [hf, hq]) r (hpend ▸ hr))
    · exact (hfol _ _).mp (hord.2.2 q hq p (by simp))
    · exact (hfol _ _).mp (h.pending p (by simp [hf]) q (hpend ▸ hq))
  · intro h
    obtain ⟨h, hp, hq⟩ := h
    refine ⟨by simpa only [hi] using h.bounds, by simpa only [hi] using h.origin, ?_, ?_⟩
    · rw [hf, List.pairwise_append]
      refine ⟨h.ordered.imp (hfol _ _).mpr, List.pairwise_singleton _ _, fun q hqm r hr => ?_⟩
      obtain rfl := List.mem_singleton.mp hr
      exact (hfol _ _).mpr (hp q hqm)
    · intro q hqm r hr
      rw [hpend] at hr
      rw [hf] at hqm
      rcases List.mem_append.mp hqm with hqm | hqm
      · exact (hfol _ _).mpr (h.pending q hqm r hr)
      · obtain rfl := List.mem_singleton.mp hqm
        exact (hfol _ _).mpr (hq r hr)

/-- What schedules an instance with all its events fired in a row schedules
it when only the first one has. -/
theorem valid_of_rest {a : Action} {le : List (Timing × Event)} {j : ℕ}
    (hle : ss.events a = some le) (hl : c.todo.lookup a = some (1, j))
    (hi : c'.instances = c.instances) (ht : c'.todo = c.todo.erase a)
    (hf : c'.fired = c.fired ++ (List.range le.tail.length).map fun i => (j, 1 + i))
    (h : Valid ss c' σ) : Valid ss c σ := by
  have ha : ∀ j', c'.actionOf j' = c.actionOf j' := fun j' => by simp only [Config.actionOf, hi]
  have hfol : ∀ p q, Follows (mutex ss c') ss.epsilon (time ss c' σ) p q ↔
      Follows (mutex ss c) ss.epsilon (time ss c σ) p q := fun p q => follows_congr (ha _) (ha _)
  have hord := h.ordered
  rw [hf, List.pairwise_append] at hord
  refine ⟨by simpa only [hi] using h.bounds, by simpa only [hi] using h.origin,
    hord.1.imp (hfol _ _).mp, fun p hp q hq => ?_⟩
  obtain ⟨b, k, i, hb, hqk, hs⟩ := mem_pending.mp hq
  by_cases hba : b = a
  · subst hba
    obtain ⟨rfl, hj⟩ : 1 = k ∧ j = q.1 := by simpa [hl] using hb
    have hlen := (Config.event_isSome hle).mp hs
    refine (hfol _ _).mp (hord.2.2 p hp q (List.mem_map.mpr ⟨i, ?_, Prod.ext hj hqk.symm⟩))
    rw [List.mem_range, List.length_tail]
    omega
  · refine (hfol _ _).mp (h.pending p (by simp [hf, hp]) q (mem_pending.mpr ⟨b, k, i, ?_, hqk, hs⟩))
    rw [ht, AList.lookup_erase_ne hba, hb]

section Fire

variable {a : Action} {le : List (Timing × Event)} {k j : ℕ}

theorem mem_pending_fire (hle : ss.events a = some le) (hl : c.todo.lookup a = some (k, j))
    (hk : k < le.length) (ht : c'.todo = Config.nextTodo c.todo a le.length k j) {q : ℕ × ℕ} :
    q ∈ pending ss c ↔ q = (j, k) ∨ q ∈ pending ss c' := by
  simp only [mem_pending, ht, Config.lookup_nextTodo]
  constructor
  · rintro ⟨b, l, i, hb, hq, hs⟩
    by_cases hba : b = a
    · subst hba
      obtain ⟨rfl, rfl⟩ : k = l ∧ j = q.1 := by simpa [hl] using hb
      cases i with
      | zero => exact .inl (Prod.ext rfl hq)
      | succ i =>
        have hlen := (Config.event_isSome hle).mp hs
        refine .inr ⟨b, k + 1, i, ?_, by omega, by rwa [show k + 1 + i = k + (i + 1) by omega]⟩
        rw [if_pos rfl, if_neg (by omega)]
    · exact .inr ⟨b, l, i, by rw [if_neg hba]; exact hb, hq, hs⟩
  · rintro (rfl | ⟨b, l, i, hb, hq, hs⟩)
    · exact ⟨a, k, 0, hl, rfl, (Config.event_isSome hle).mpr hk⟩
    · split_ifs at hb with hba hlen
      · subst hba
        obtain ⟨rfl, hj⟩ : k + 1 = l ∧ j = q.1 := by simpa using hb
        exact ⟨b, k, i + 1, by rw [hl, hj], by omega,
          by rwa [show k + (i + 1) = k + 1 + i by omega]⟩
      · exact ⟨b, l, i, hb, hq, hs⟩

/-- Firing the next event of a running action: its place behind the past was
already required, what is new is that the pending ones follow it. -/
theorem valid_fire_iff (hle : ss.events a = some le) (hl : c.todo.lookup a = some (k, j))
    (hk : k < le.length) (ht : c'.todo = Config.nextTodo c.todo a le.length k j)
    (hi : c'.instances = c.instances) (hf : c'.fired = c.fired ++ [(j, k)]) :
    Valid ss c' σ ↔ Valid ss c σ ∧
      ∀ q ∈ pending ss c', Follows (mutex ss c) ss.epsilon (time ss c σ) (j, k) q := by
  have ha : ∀ j', c'.actionOf j' = c.actionOf j' := fun j' => by simp only [Config.actionOf, hi]
  have hfol : ∀ p q, Follows (mutex ss c') ss.epsilon (time ss c' σ) p q ↔
      Follows (mutex ss c) ss.epsilon (time ss c σ) p q := fun p q => follows_congr (ha _) (ha _)
  have hmem := fun q => mem_pending_fire (q := q) hle hl hk ht
  constructor
  · intro h
    have hord := h.ordered
    rw [hf, List.pairwise_append] at hord
    refine ⟨⟨by simpa only [hi] using h.bounds, by simpa only [hi] using h.origin,
      hord.1.imp (hfol _ _).mp, fun p hp q hq => ?_⟩, fun q hq => ?_⟩
    · rcases (hmem q).mp hq with rfl | hq
      · exact (hfol _ _).mp (hord.2.2 p hp _ (by simp))
      · exact (hfol _ _).mp (h.pending p (by simp [hf, hp]) q hq)
    · exact (hfol _ _).mp (h.pending (j, k) (by simp [hf]) q hq)
  · rintro ⟨h, hq⟩
    refine ⟨by simpa only [hi] using h.bounds, by simpa only [hi] using h.origin, ?_, ?_⟩
    · rw [hf, List.pairwise_append]
      refine ⟨h.ordered.imp (hfol _ _).mpr, List.pairwise_singleton _ _, ?_⟩
      rintro p hp q hq
      obtain rfl := List.mem_singleton.mp hq
      exact (hfol _ _).mpr (h.pending p hp _ ((hmem _).mpr (.inl rfl)))
    · intro p hp q hq'
      rw [hf] at hp
      rcases List.mem_append.mp hp with hp | hp
      · exact (hfol _ _).mpr (h.pending p hp q ((hmem q).mpr (.inr hq')))
      · obtain rfl := List.mem_singleton.mp hp
        exact (hfol _ _).mpr (hq q hq')

end Fire

section Open

variable {a : Action} {le : List (Timing × Event)} {i : Instance}

theorem mem_pending_open (hle : ss.events a = some le) (hl : c.todo.lookup a = none)
    (ht : c'.todo = if 1 < le.length then c.todo.insert a (1, c.instances.length) else c.todo)
    {q : ℕ × ℕ} : q ∈ pending ss c' ↔
      (q.1 = c.instances.length ∧ 1 ≤ q.2 ∧ q.2 < le.length) ∨ q ∈ pending ss c := by
  simp only [mem_pending, ht]
  constructor
  · rintro ⟨b, l, i, hb, hq, hs⟩
    by_cases hba : b = a
    · subst hba
      by_cases hlen : 1 < le.length
      · obtain ⟨rfl, hj⟩ : 1 = l ∧ c.instances.length = q.1 := by simpa [hlen] using hb
        have := (Config.event_isSome hle).mp hs
        exact .inl ⟨hj.symm, by omega, by omega⟩
      · simp [hlen, hl] at hb
    · refine .inr ⟨b, l, i, ?_, hq, hs⟩
      by_cases hlen : 1 < le.length
      · simpa [hlen, AList.lookup_insert_ne hba] using hb
      · simpa [hlen] using hb
  · rintro (⟨hj, h1, hk⟩ | ⟨b, l, i, hb, hq, hs⟩)
    · refine ⟨a, 1, q.2 - 1, ?_, by omega, (Config.event_isSome hle).mpr (by omega)⟩
      rw [if_pos (by omega), AList.lookup_insert, hj]
    · have hba : b ≠ a := by
        rintro rfl
        rw [hl] at hb
        contradiction
      refine ⟨b, l, i, ?_, hq, hs⟩
      by_cases hlen : 1 < le.length
      · rwa [if_pos hlen, AList.lookup_insert_ne hba]
      · rwa [if_neg hlen]

/-- Opening an instance: its bounds and origin, its first event behind the
past, and the pending events behind that one. -/
theorem valid_open_iff [Callables] (hwf : c.WellFormed ss) (hle : ss.events a = some le)
    (hl : c.todo.lookup a = none)
    (ht : c'.todo = if 1 < le.length then c.todo.insert a (1, c.instances.length) else c.todo)
    (hi : c'.instances = c.instances ++ [i]) (hia : i.action = a)
    (hf : c'.fired = c.fired ++ [(c.instances.length, 0)]) :
    Valid ss c' σ ↔ Valid ss c σ ∧
      (i.lower ≤ (σ c.instances.length).2 - (σ c.instances.length).1 ∧
        (σ c.instances.length).2 - (σ c.instances.length).1 ≤ i.upper) ∧
      (if i.pinned then (σ c.instances.length).1 = 0 else 0 ≤ (σ c.instances.length).1) ∧
      (∀ p ∈ c.fired,
        Follows (mutex ss c') ss.epsilon (time ss c' σ) p (c.instances.length, 0)) ∧
      ∀ q ∈ pending ss c',
        Follows (mutex ss c') ss.epsilon (time ss c' σ) (c.instances.length, 0) q := by
  have ha : ∀ {j'}, j' < c.instances.length → c'.actionOf j' = c.actionOf j' := fun h => by
    simp only [Config.actionOf, hi, List.getElem?_append_left h]
  have han : c'.actionOf c.instances.length = a := by simp [Config.actionOf, hi, hia]
  have hget : ∀ {P : ℕ → Instance → Prop}, (∀ j i', c'.instances[j]? = some i' → P j i') ↔
      (∀ j i', c.instances[j]? = some i' → P j i') ∧ P c.instances.length i := by
    intro P
    rw [hi]
    constructor
    · refine fun h => ⟨fun j i' hj => h j i' ?_, h _ _ (by simp)⟩
      rw [List.getElem?_append_left (List.getElem?_eq_some_iff.mp hj).1, hj]
    · rintro ⟨h, hn⟩ j i' hj
      rcases lt_trichotomy j c.instances.length with hlt | rfl | hgt
      · exact h j i' (by rwa [List.getElem?_append_left hlt] at hj)
      · obtain rfl : i = i' := by simpa using hj
        exact hn
      · rw [List.getElem?_eq_none (by simp; omega)] at hj
        contradiction
  have hfol : ∀ {p q : ℕ × ℕ}, p.1 < c.instances.length → q.1 < c.instances.length →
      (Follows (mutex ss c') ss.epsilon (time ss c' σ) p q ↔
        Follows (mutex ss c) ss.epsilon (time ss c σ) p q) :=
    fun hp hq => follows_congr (ha hp) (ha hq)
  have hmem := fun q => mem_pending_open (q := q) hle hl ht
  constructor
  · intro h
    have hord := h.ordered
    rw [hf, List.pairwise_append] at hord
    refine ⟨⟨(hget.mp h.bounds).1, (hget.mp h.origin).1, ?_, fun p hp q hq => ?_⟩,
      (hget.mp h.bounds).2, (hget.mp h.origin).2, fun p hp => hord.2.2 p hp _ (by simp),
      fun q hq => h.pending _ (by simp [hf]) q hq⟩
    · exact hord.1.imp_of_mem fun hp hq =>
        (hfol (hwf.fired _ hp).1 (hwf.fired _ hq).1).mp
    · exact (hfol (hwf.fired _ hp).1 (actionOf_pending hwf hq).1).mp
        (h.pending p (by simp [hf, hp]) q ((hmem q).mpr (.inr hq)))
  · rintro ⟨h, hb, ho, hp, hq⟩
    refine ⟨hget.mpr ⟨h.bounds, hb⟩, hget.mpr ⟨h.origin, ho⟩, ?_, ?_⟩
    · rw [hf, List.pairwise_append]
      refine ⟨h.ordered.imp_of_mem fun hp hq =>
        (hfol (hwf.fired _ hp).1 (hwf.fired _ hq).1).mpr, List.pairwise_singleton _ _, ?_⟩
      rintro p hpm q hqm
      obtain rfl := List.mem_singleton.mp hqm
      exact hp p hpm
    · intro p hpm q hqm
      rw [hf] at hpm
      rcases List.mem_append.mp hpm with hpm | hpm
      · rcases (hmem q).mp hqm with ⟨hqj, -, -⟩ | hqo
        · -- a later event of the new instance is separated from its first one
          have hsame : mutex ss c' (c.instances.length, 0) q := mutex_same (by rw [hqj])
          exact Follows.of_earlier (hp p hpm).1 ss.epsilon_nonneg ((hq q hqm).2 hsame)
        · exact (hfol (hwf.fired _ hpm).1 (actionOf_pending hwf hqo).1).mpr (h.pending p hpm q hqo)
      · obtain rfl := List.mem_singleton.mp hpm
        exact hq q hqm

end Open

end Schedule

end TamerLite
