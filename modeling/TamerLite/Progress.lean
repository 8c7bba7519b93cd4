import TamerLite.Firing

/-! How far each instance has come: its events fire in order, each once, up to
the one its `todo` entry names, or all of them. -/

namespace TamerLite

open Difference SearchSpace

theorem pairwise_or {α : Type*} {R : α → α → Prop} {l : List α} (h : l.Pairwise R) {x y : α}
    (hx : x ∈ l) (hy : y ∈ l) (hne : x ≠ y) : R x y ∨ R y x := by
  induction l with
  | nil => exact absurd hx List.not_mem_nil
  | cons z l ih =>
    have hz := List.pairwise_cons.mp h
    rcases List.mem_cons.mp hx with rfl | hx
    · rcases List.mem_cons.mp hy with rfl | hy
      · exact absurd rfl hne
      · exact .inl (hz.1 y hy)
    · rcases List.mem_cons.mp hy with hyz | hy
      · exact .inr (hyz ▸ hz.1 x hx)
      · exact ih hz.2 hx hy

namespace Config

/-- Instance `j` is the running one of its action. -/
def Running (c : Config) (j : ℕ) : Prop := ∃ k, c.todo.lookup (c.actionOf j) = some (k, j)

structure Progress [Callables] (ss : SearchSpace) (c : Config) : Prop where
  bounds : ∀ i ∈ c.instances, ∃ assignments,
    ss.durationBounds i.action assignments = some (i.lower, i.upper)
  first : ∀ j < c.instances.length, (j, 0) ∈ c.fired
  increasing : c.fired.Pairwise fun p q => p.1 = q.1 → p.2 < q.2
  running : ∀ {a : Action} {k j : ℕ}, c.todo.lookup a = some (k, j) →
    ∀ i, (j, i) ∈ c.fired ↔ i < k
  done : ∀ j < c.instances.length, ¬ c.Running j →
    ∀ i, (j, i) ∈ c.fired ↔ (ss.event (c.actionOf j) i).isSome

variable [Callables] {ss : SearchSpace} {c c' : Config} {a : Action}

theorem running_unique (hwf : WellFormed ss c) {b : Action} {k k' j j' : ℕ}
    (h : c.todo.lookup a = some (k, j)) (h' : c.todo.lookup b = some (k', j')) (hne : b ≠ a) :
    j' ≠ j := by
  intro hj
  have ha := (hwf.todo h).2.1
  have hb := (hwf.todo h').2.1
  rw [hj] at hb
  exact hne (hb.symm.trans ha)

theorem Progress.opened {e : Event} {le : List (Timing × Event)} {i' : Instance}
    (h : Progress ss c) (hwf : WellFormed ss c) (hle : ss.events a = some le)
    (hl : c.todo.lookup a = none) (hpos : 0 < le.length) (hia : i'.action = a)
    (hb : ss.durationBounds a c.assignments = some (i'.lower, i'.upper))
    (hf : c.fire e (c.instances.length, 0)
      (if 1 < le.length then c.todo.insert a (1, c.instances.length) else c.todo)
      (c.instances ++ [i']) = some c') : Progress ss c' := by
  obtain ⟨removed, as, -, -, -, rfl⟩ := fire_eq_some.mp hf
  have hfresh : ∀ i, (c.instances.length, i) ∉ c.fired := fun i hi =>
    absurd (hwf.fired _ hi).1 (lt_irrefl _)
  have hmem : ∀ j' i, (j', i) ∈ c.fired ++ [(c.instances.length, 0)] ↔
      (j', i) ∈ c.fired ∨ (j' = c.instances.length ∧ i = 0) := by
    intro j' i
    simp
  refine ⟨fun i hi => ?_, fun j' hj' => ?_, ?_, fun {b k' j'} he i => ?_, fun j' hj' hn i => ?_⟩
  · rcases List.mem_append.mp hi with hi | hi
    · exact h.bounds i hi
    · obtain rfl := List.mem_singleton.mp hi
      exact ⟨c.assignments, hia ▸ hb⟩
  · rw [hmem]
    simp only [List.length_append, List.length_cons, List.length_nil] at hj'
    by_cases hjj : j' = c.instances.length
    · exact .inr ⟨hjj, rfl⟩
    · exact .inl (h.first j' (by omega))
  · refine List.pairwise_append.mpr ⟨h.increasing, List.pairwise_singleton _ _, ?_⟩
    intro p hp q hq hpq
    obtain rfl := List.mem_singleton.mp hq
    have := (hwf.fired p hp).1
    simp only at hpq
    omega
  · rw [hmem]
    by_cases hlen : 1 < le.length
    · by_cases hea : b = a
      · subst hea
        simp only [hlen, if_true, AList.lookup_insert, Option.some.injEq, Prod.mk.injEq] at he
        obtain ⟨rfl, rfl⟩ := he
        simp only [hfresh i, false_or, true_and]
        omega
      · have he' : c.todo.lookup b = some (k', j') := by
          simpa [hlen, AList.lookup_insert_ne hea] using he
        have hlt := (hwf.todo he').1
        rw [h.running he' i]
        have : j' ≠ c.instances.length := by omega
        simp [this]
    · have he' : c.todo.lookup b = some (k', j') := by simpa [hlen] using he
      have hlt := (hwf.todo he').1
      rw [h.running he' i]
      have : j' ≠ c.instances.length := by omega
      simp [this]
  · rw [hmem]
    simp only [List.length_append, List.length_cons, List.length_nil] at hj'
    by_cases hjj : j' = c.instances.length
    · subst hjj
      have hact : actionOf ⟨as, if 1 < le.length then c.todo.insert a (1, c.instances.length)
          else c.todo, removed + e.startConditions, c.instances ++ [i'],
          c.fired ++ [(c.instances.length, 0)]⟩ c.instances.length = a := by
        rw [actionOf_new, hia]
      have hlen : ¬ 1 < le.length := by
        intro hlen
        refine hn ⟨1, ?_⟩
        rw [hact]
        simp [hlen]
      rw [hact, event_isSome hle]
      simp only [hfresh i, false_or, true_and]
      omega
    · have hlt : j' < c.instances.length := by omega
      rw [actionOf_append hlt]
      have hdone : ¬ c.Running j' := by
        intro hr
        obtain ⟨k', hk'⟩ := hr
        refine hn ⟨k', ?_⟩
        rw [actionOf_append hlt]
        by_cases hlen : 1 < le.length
        · have hact : c.actionOf j' ≠ a := by
            intro he
            rw [he, hl] at hk'
            contradiction
          simpa [hlen, AList.lookup_insert_ne hact] using hk'
        · simpa [hlen] using hk'
      rw [h.done j' hlt hdone i]
      simp [hjj]

theorem Progress.step (h : Progress ss c) (hwf : WellFormed ss c) (hs : c.step ss a = some c') :
    Progress ss c' := by
  rcases step_eq_some.mp hs with ⟨le, k, j, te, hle, hl, hte, -, hf⟩ |
    ⟨le, te, b, hle, hl, -, -, hte, -, hb, hf⟩
  · obtain ⟨removed, as, -, -, -, rfl⟩ := fire_eq_some.mp hf
    have hk : k < le.length := (List.getElem?_eq_some_iff.mp hte).1
    have hj := hwf.todo hl
    have hrun := h.running hl
    have hmem : ∀ j' i, (j', i) ∈ c.fired ++ [(j, k)] ↔ (j', i) ∈ c.fired ∨ (j' = j ∧ i = k) := by
      intro j' i
      simp
    refine ⟨h.bounds, fun j' hj' => ?_, ?_, fun {b k' j'} hb i => ?_, fun j' hj' hn i => ?_⟩
    · exact List.mem_append_left _ (h.first j' hj')
    · refine List.pairwise_append.mpr ⟨h.increasing, List.pairwise_singleton _ _, ?_⟩
      intro p hp q hq hpq
      obtain rfl := List.mem_singleton.mp hq
      exact (hrun p.2).mp (by rw [← show p.1 = j from hpq]; exact hp)
    · rw [hmem]
      rw [lookup_nextTodo] at hb
      split_ifs at hb with hba hlen
      · obtain ⟨rfl, rfl⟩ : k + 1 = k' ∧ j = j' := by simpa using hb
        rw [hrun i]
        omega
      · have hne := running_unique hwf hl hb hba
        rw [h.running hb i]
        simp [hne]
    · rw [hmem]
      change (j', i) ∈ c.fired ∨ _ ↔ (ss.event (c.actionOf j') i).isSome = true
      have hn' : ∀ k', (nextTodo c.todo a le.length k j).lookup (c.actionOf j') ≠ some (k', j') :=
        fun k' hk' => hn ⟨k', hk'⟩
      by_cases hjj : j' = j
      · subst hjj
        have hlen : le.length ≤ k + 1 := by
          by_contra hlen
          refine hn' (k + 1) ?_
          rw [lookup_nextTodo, if_pos hj.2.1, if_neg hlen]
        rw [hrun i, hj.2.1, event_isSome hle]
        omega
      · have hdone : ¬ c.Running j' := by
          intro hr
          obtain ⟨k', hk'⟩ := hr
          by_cases hact : c.actionOf j' = a
          · rw [hact, hl] at hk'
            exact hjj (congrArg Prod.snd (Option.some.inj hk')).symm
          · refine hn' k' ?_
            rw [lookup_nextTodo, if_neg hact, hk']
        rw [h.done j' hj' hdone i]
        simp [hjj]
  · exact h.opened hwf hle hl (List.getElem?_eq_some_iff.mp hte).1 rfl hb hf

theorem progress_rest {d : Config} {le : List (Timing × Event)} {j : ℕ} (h : Progress ss d)
    (hwf : WellFormed ss d) (hle : ss.events a = some le) (hl : d.todo.lookup a = some (1, j))
    (hlen : 1 < le.length)
    (hf : fireRest { d with todo := d.todo.erase a } j le.tail 1 = some c') : Progress ss c' := by
  obtain ⟨ht, hi, hfired⟩ := fireRest_spec hf
  have hact : ∀ j', c'.actionOf j' = d.actionOf j' := fun j' => by simp only [actionOf, hi]
  have hj := hwf.todo hl
  have hrun := h.running hl
  have hmem : ∀ j' i, (j', i) ∈ c'.fired ↔
      (j', i) ∈ d.fired ∨ (j' = j ∧ 1 ≤ i ∧ i < le.length) := by
    intro j' i
    rw [hfired]
    simp only [List.mem_append, List.mem_map, List.mem_range, List.length_tail, Prod.mk.injEq]
    refine or_congr_right ?_
    constructor
    · intro hx
      obtain ⟨x, hx, rfl, rfl⟩ := hx
      omega
    · intro hx
      exact ⟨i - 1, by omega, hx.1.symm, by omega⟩
  refine ⟨fun i hi' => h.bounds i (hi ▸ hi'), fun j' hj' => ?_, ?_, fun {b k' j'} hb i => ?_,
    fun j' hj' hn i => ?_⟩
  · rw [hmem]
    exact .inl (h.first j' (by rwa [hi] at hj'))
  · rw [hfired]
    refine List.pairwise_append.mpr ⟨h.increasing, ?_, ?_⟩
    · refine List.pairwise_map.mpr (List.pairwise_lt_range.imp ?_)
      intro x y hxy _
      simp only
      omega
    · intro p hp q hq hpq
      obtain ⟨x, -, rfl⟩ := List.mem_map.mp hq
      have := (hrun p.2).mp (by rw [← show p.1 = j from hpq]; exact hp)
      simp only
      omega
  · rw [ht] at hb
    by_cases hba : b = a
    · subst hba
      simp at hb
    · have hb' : d.todo.lookup b = some (k', j') := by
        simpa [AList.lookup_erase_ne hba] using hb
      have hne := running_unique hwf hl hb' hba
      rw [hmem, h.running hb' i]
      simp [hne]
  · rw [hi] at hj'
    rw [hmem, hact]
    by_cases hjj : j' = j
    · subst hjj
      rw [hrun i, hj.2.1, event_isSome hle]
      omega
    · have hdone : ¬ d.Running j' := by
        intro hr
        obtain ⟨k', hk'⟩ := hr
        by_cases hja : d.actionOf j' = a
        · rw [hja, hl] at hk'
          exact hjj (congrArg Prod.snd (Option.some.inj hk')).symm
        · refine hn ⟨k', ?_⟩
          rw [hact, ht]
          change (d.todo.erase a).lookup _ = _
          rw [AList.lookup_erase_ne hja, hk']
      rw [h.done j' hj' hdone i]
      simp [hjj]

theorem Progress.stepWith {b : Bool} (h : Progress ss c) (hwf : WellFormed ss c)
    (hs : c.stepWith ss b a = some c') : Progress ss c' := by
  rcases stepWith_eq_some.mp hs with ⟨-, hs⟩ | ⟨d, le, hc, hle, hs, hf⟩
  · exact h.step hwf hs
  · obtain ⟨hlen, hl, -, -⟩ := opened_of_compresses hc hle hs
    exact progress_rest (h.step hwf hs) (hwf.step hs) hle hl hlen hf

theorem progress_empty : Progress ss ⟨ss.initialState, ∅, 0, [], []⟩ :=
  ⟨fun i hi => absurd hi List.not_mem_nil, fun j hj => absurd hj (by simp), List.Pairwise.nil,
    fun h => by simp at h, fun j hj => absurd hj (by simp)⟩

theorem progress_initial (h : initial ss = some c) : Progress ss c := by
  rcases initial_eq_some.mp h with ⟨-, rfl⟩ | ⟨a, le, te, b, -, hle, hte, -, hb, hf⟩
  · exact progress_empty
  · exact progress_empty.opened wellFormed_empty hle (by simp)
      (List.getElem?_eq_some_iff.mp hte).1 rfl hb hf

theorem Reachable.progress {b : Bool} (h : Reachable ss b c) : Progress ss c := by
  obtain ⟨c₀, as, h₀, hr⟩ := h
  have hboth :=
    runWith_induct (P := fun c => WellFormed ss c ∧ Progress ss c)
      (fun hd hs => ⟨hd.1.stepWith hs, hd.2.stepWith hd.1 hs⟩)
      ⟨wellFormed_initial h₀, progress_initial h₀⟩ hr
  exact hboth.2

end Config

end TamerLite
