import Mathlib.Data.Set.Insert
import Mathlib.Order.Basic

/-! Loops that answer, and explorations of a graph: what a frontier promises of
the nodes left unexplored, and why nothing is missed once it runs out. -/

namespace Exploration

section Loop

variable {σ ρ : Type*}

/-- Repeats a step until it answers, at most `n` times. -/
def iterate (step : σ → ρ ⊕ σ) : ℕ → ρ ⊕ σ → ρ ⊕ σ
  | 0, x => x
  | _ + 1, .inl r => .inl r
  | n + 1, .inr s => iterate step n (step s)

variable {step : σ → ρ ⊕ σ} {Inv : σ → Prop} {s t : σ} {r : ρ} {n : ℕ}

theorem iterate_succ (x : ρ ⊕ σ) :
    iterate step (n + 1) x = Sum.elim .inl step (iterate step n x) := by
  induction n generalizing x with
  | zero => cases x <;> rfl
  | succ n ih =>
    cases x with
    | inl r => rfl
    | inr s => exact ih (step s)

@[simp] theorem iterate_inl : iterate step n (.inl r) = .inl r := by
  cases n <;> rfl

/-- An invariant of the step holds as long as the loop runs. -/
theorem iterate_inv (hstep : ∀ s t, Inv s → step s = .inr t → Inv t) (hs : Inv s)
    (h : iterate step n (.inr s) = .inr t) : Inv t := by
  induction n generalizing s with
  | zero => exact Sum.inr.inj h ▸ hs
  | succ n ih =>
    rw [iterate] at h
    cases hst : step s with
    | inl r => rw [hst, iterate_inl] at h; contradiction
    | inr u => exact ih (hstep s u hs hst) (by rw [← hst]; exact h)

/-- A loop whose steps lower a measure answers, from a state the invariant holds of. -/
theorem exists_answer {α : Type*} [Preorder α] [WellFoundedLT α] {μ : σ → α}
    (hstep : ∀ s t, Inv s → step s = .inr t → Inv t ∧ μ t < μ s) (hs : Inv s) :
    ∃ n r t, iterate step n (.inr s) = .inl r ∧ Inv t ∧ step t = .inl r := by
  induction hm : μ s using WellFoundedLT.induction generalizing s with
  | _ m ih =>
    cases hst : step s with
    | inl r => exact ⟨1, r, s, by rw [iterate, hst, iterate], hs, hst⟩
    | inr u =>
      obtain ⟨hu, hlt⟩ := hstep s u hs hst
      obtain ⟨n, r, t, hn, ht, hr⟩ := ih _ (hm ▸ hlt) hu rfl
      exact ⟨n + 1, r, t, by rw [iterate, hst, hn], ht, hr⟩

/-- A loop whose steps lower a rank its states can be given answers. -/
theorem exists_answer_of_rank {Ranked : σ → ℕ → Prop} {k : ℕ}
    (hstep : ∀ s t k, Ranked s k → step s = .inr t → ∃ j < k, Ranked t j) (hs : Ranked s k) :
    ∃ n r, iterate step n (.inr s) = .inl r := by
  induction k using Nat.strong_induction_on generalizing s with
  | _ k ih =>
    cases hst : step s with
    | inl r => exact ⟨1, r, by rw [iterate, hst, iterate]⟩
    | inr t =>
      obtain ⟨j, hj, ht⟩ := hstep s t k hs hst
      obtain ⟨n, r, hn⟩ := ih j hj ht
      exact ⟨n + 1, r, by rw [iterate, hst, hn]⟩

/-- An answer is final. -/
theorem iterate_of_le {x : ρ ⊕ σ} {m : ℕ} (h : iterate step n x = .inl r) (hm : n ≤ m) :
    iterate step m x = .inl r := by
  induction hm with
  | refl => exact h
  | step _ ih =>
    rw [iterate_succ, ih]
    rfl

/-- Two bodies that agree as long as the loop runs. -/
theorem iterate_congr {step' : σ → ρ ⊕ σ} (hstep : ∀ s t, Inv s → step s = .inr t → Inv t)
    (heq : ∀ s, Inv s → step' s = step s) (hs : Inv s) :
    iterate step' n (.inr s) = iterate step n (.inr s) := by
  induction n generalizing s with
  | zero => rfl
  | succ n ih =>
    rw [iterate, iterate, heq s hs]
    cases hst : step s with
    | inl r => rw [iterate_inl, iterate_inl]
    | inr t => exact ih (hstep s t hs hst)

/-- The iteration a loop answered in. -/
theorem exists_last (h : iterate step n (.inr s) = .inl r) :
    ∃ m t, iterate step m (.inr s) = .inr t ∧ step t = .inl r := by
  induction n with
  | zero => exact absurd h Sum.inr_ne_inl
  | succ n ih =>
    rw [iterate_succ] at h
    cases hn : iterate step n (.inr s) with
    | inl r' =>
      rw [hn] at h
      exact ih (hn.trans h)
    | inr t =>
      rw [hn] at h
      exact ⟨n, t, hn, h⟩

/-- A loop follows another one whose answers it gives and whose steps it matches. -/
theorem iterate_follows {σ' : Type*} {step' : σ' → ρ ⊕ σ'} {R : σ' → σ → Prop} {p : ρ → Prop}
    (hans : ∀ {s t r}, R s t → p r → step' s = .inl r → step t = .inl r)
    (hstep : ∀ {s t s'}, R s t → step' s = .inr s' → ∃ t', step t = .inr t' ∧ R s' t')
    {s : σ'} {t : σ} (h : R s t) :
    (∀ s', iterate step' n (.inr s) = .inr s' →
      ∃ t', iterate step n (.inr t) = .inr t' ∧ R s' t') ∧
    ∀ r, p r → iterate step' n (.inr s) = .inl r → iterate step n (.inr t) = .inl r := by
  induction n generalizing s t with
  | zero =>
    refine ⟨fun s' hs' => ?_, fun r _ hr => absurd hr Sum.inr_ne_inl⟩
    obtain rfl := Sum.inr.inj hs'
    exact ⟨t, rfl, h⟩
  | succ n ih =>
    simp only [iterate]
    cases hs : step' s with
    | inl r =>
      refine ⟨fun s' hs' => absurd hs' (by simp), fun r' hp hr => ?_⟩
      obtain rfl : r = r' := by simpa using hr
      rw [hans h hp hs, iterate_inl]
    | inr u =>
      obtain ⟨v, hv, hR⟩ := hstep h hs
      rw [hv]
      exact ih hR

/-- A loop whose steps are the images of another one's. -/
theorem iterate_map {ρ' σ' : Type*} {step' : σ' → ρ' ⊕ σ'} {f : ρ → ρ'} {g : σ → σ'}
    (hstep : ∀ s, step' (g s) = (step s).map f g) (x : ρ ⊕ σ) :
    iterate step' n (x.map f g) = (iterate step n x).map f g := by
  induction n generalizing x with
  | zero => rfl
  | succ n ih =>
    cases x with
    | inl r => rfl
    | inr s =>
      rw [Sum.map_inr, iterate, hstep]
      exact ih (step s)

theorem liftRel_map {σ' τ : Type*} {R : σ → σ' → Prop} {r : ρ → ρ → Prop} {f : ρ → τ} {x : ρ ⊕ σ}
    {y : ρ ⊕ σ'} (hf : ∀ {a b}, r a b → f a = f b) (h : Sum.LiftRel r R x y) :
    Sum.LiftRel (· = ·) R (x.map f id) (y.map f id) := by
  cases h with
  | inl h => exact .inl (hf h)
  | inr h => exact .inr h

/-- Two loops whose steps keep a relation answer alike. -/
theorem iterate_liftRel {σ' : Type*} {step' : σ' → ρ ⊕ σ'} {R : σ → σ' → Prop} {r : ρ → ρ → Prop}
    (hstep : ∀ {s t}, R s t → Sum.LiftRel r R (step s) (step' t)) {x : ρ ⊕ σ} {y : ρ ⊕ σ'}
    (h : Sum.LiftRel r R x y) :
    Sum.LiftRel r R (iterate step n x) (iterate step' n y) := by
  induction n generalizing x y with
  | zero => exact h
  | succ n ih =>
    cases h with
    | inl h => exact .inl h
    | inr h => exact ih (hstep h)

end Loop

section Frontier

variable {N K : Type*} (key : N → K) (Succ : N → N → Prop) (Near : ℕ → K → Prop)

/-- Nodes are told apart by their keys. Every recorded key a goal lies ahead of
is that of an open or an expanded node, and the successors of the expanded
nodes are recorded. -/
structure Frontier (recorded : Set K) (openNodes expanded : Set N) : Prop where
  covered : ∀ r ∈ recorded, ∀ k, Near k r → ∃ n, (n ∈ openNodes ∨ n ∈ expanded) ∧ key n = r
  closed : ∀ n ∈ expanded, ∀ m, Succ n m → key m ∈ recorded

variable {key Succ Near} {recorded recorded' : Set K} {openNodes openNodes' expanded : Set N} {n : N}

theorem Frontier.mono (h : Frontier key Succ Near recorded openNodes expanded)
    (hopen : openNodes ⊆ openNodes') : Frontier key Succ Near recorded openNodes' expanded := by
  refine ⟨fun r hr k hk => ?_, h.closed⟩
  obtain ⟨n, hn, hkey⟩ := h.covered r hr k hk
  exact ⟨n, hn.imp_left fun hm => hopen hm, hkey⟩

/-- Expanding an open node keeps the promise, if its successors are recorded
and each newly recorded key a goal lies ahead of is opened. -/
theorem Frontier.expand (h : Frontier key Succ Near recorded openNodes expanded)
    (hrec : recorded ⊆ recorded') (hopen : ∀ m ∈ openNodes, m ∈ openNodes' ∨ m = n)
    (hsucc : ∀ m, Succ n m → key m ∈ recorded')
    (hnew : ∀ r ∈ recorded', r ∉ recorded → ∀ k, Near k r → ∃ m ∈ openNodes', key m = r) :
    Frontier key Succ Near recorded' openNodes' (insert n expanded) := by
  constructor
  · intro r hr k hk
    by_cases hold : r ∈ recorded
    · obtain ⟨m, hm, rfl⟩ := h.covered r hold k hk
      rcases hm with hm | hm
      · rcases hopen m hm with hm | rfl
        · exact ⟨m, .inl hm, rfl⟩
        · exact ⟨m, .inr (Set.mem_insert m expanded), rfl⟩
      · exact ⟨m, .inr (Set.mem_insert_of_mem n hm), rfl⟩
    · obtain ⟨m, hm, hkey⟩ := hnew r hr hold k hk
      exact ⟨m, .inl hm, hkey⟩
  · intro m hm m' hs
    rcases Set.mem_insert_iff.mp hm with rfl | hm
    · exact hsucc m' hs
    · exact hrec (h.closed m hm m' hs)

/-- Where nothing is open, no goal lies ahead of a recorded key: a goal nearest
to the expanded nodes would be one of them or a step nearer to another. -/
theorem Frontier.exhausted (h : Frontier key Succ Near recorded ∅ expanded)
    (hgoal : ∀ n ∈ expanded, ¬ Near 0 (key n))
    (hstep : ∀ n ∈ expanded, ∀ k, Near (k + 1) (key n) → ∃ m, Succ n m ∧ Near k (key m))
    (k : ℕ) : ∀ r ∈ recorded, ¬ Near k r := by
  have hlive : ∀ r ∈ recorded, ∀ k, Near k r → ∃ n ∈ expanded, key n = r := by
    intro r hr k hk
    obtain ⟨n, hn, hkey⟩ := h.covered r hr k hk
    exact ⟨n, hn.resolve_left (Set.notMem_empty n), hkey⟩
  induction k with
  | zero =>
    intro r hr hk
    obtain ⟨n, hn, rfl⟩ := hlive r hr 0 hk
    exact hgoal n hn hk
  | succ k ih =>
    intro r hr hk
    obtain ⟨n, hn, rfl⟩ := hlive r hr (k + 1) hk
    obtain ⟨m, hm, hnear⟩ := hstep n hn k hk
    exact ih (key m) (h.closed n hn m hm) hnear

end Frontier

section Pruning

variable {N : Type*} {Near : ℕ → N → Prop}

/-- A search that drops nodes it was handed: where a goal lies ahead of one, it lies
as near ahead of a node that is open or expanded. -/
structure Pruning (Near : ℕ → N → Prop) (handed openNodes expanded : Set N) : Prop where
  covered : ∀ n ∈ handed, ∀ k, Near k n → ∃ m, (m ∈ openNodes ∨ m ∈ expanded) ∧ Near k m
  closed : ∀ n ∈ expanded, ∀ k, Near (k + 1) n → ∃ m ∈ handed, Near k m
  fruitless : ∀ n ∈ expanded, ¬ Near 0 n

variable {handed handed' openNodes openNodes' expanded : Set N} {n : N}

/-- Expanding an open node keeps this, if what lies ahead of a node that is handed over
lies ahead of one that is opened or was handed over before. -/
theorem Pruning.expand (h : Pruning Near handed openNodes expanded) (hsub : handed ⊆ handed')
    (hopen : ∀ m ∈ openNodes, m ∈ openNodes' ∨ m = n)
    (hnew : ∀ m ∈ handed', m ∈ handed ∨
      ∀ k, Near k m → ∃ o, (o ∈ handed ∨ o ∈ openNodes') ∧ Near k o)
    (hclosed : ∀ k, Near (k + 1) n → ∃ m ∈ handed', Near k m) (hno : ¬ Near 0 n) :
    Pruning Near handed' openNodes' (insert n expanded) := by
  have hold : ∀ m ∈ handed, ∀ k, Near k m →
      ∃ o, (o ∈ openNodes' ∨ o ∈ insert n expanded) ∧ Near k o := by
    intro m hm k hk
    obtain ⟨o, ho, hok⟩ := h.covered m hm k hk
    rcases ho with ho | ho
    · rcases hopen o ho with ho | rfl
      · exact ⟨o, .inl ho, hok⟩
      · exact ⟨o, .inr (Set.mem_insert o expanded), hok⟩
    · exact ⟨o, .inr (Set.mem_insert_of_mem n ho), hok⟩
  constructor
  · intro m hm k hk
    rcases hnew m hm with hm | hm
    · exact hold m hm k hk
    · obtain ⟨o, ho, hok⟩ := hm k hk
      rcases ho with ho | ho
      · exact hold o ho k hok
      · exact ⟨o, .inl ho, hok⟩
  · intro m hm k hk
    rcases Set.mem_insert_iff.mp hm with rfl | hm
    · exact hclosed k hk
    · obtain ⟨o, ho, hok⟩ := h.closed m hm k hk
      exact ⟨o, hsub ho, hok⟩
  · intro m hm
    rcases Set.mem_insert_iff.mp hm with rfl | hm
    · exact hno
    · exact h.fruitless m hm

/-- Where nothing is open, no goal lies ahead of a node that was handed over. -/
theorem Pruning.exhausted (h : Pruning Near handed ∅ expanded) (k : ℕ) : ∀ n ∈ handed, ¬ Near k n := by
  have hlive : ∀ n ∈ handed, ∀ k, Near k n → ∃ m ∈ expanded, Near k m := by
    intro n hn k hk
    obtain ⟨m, hm, hmk⟩ := h.covered n hn k hk
    exact ⟨m, hm.resolve_left (Set.notMem_empty m), hmk⟩
  induction k with
  | zero =>
    intro n hn hk
    obtain ⟨m, hm, hmk⟩ := hlive n hn 0 hk
    exact h.fruitless m hm hmk
  | succ k ih =>
    intro n hn hk
    obtain ⟨m, hm, hmk⟩ := hlive n hn (k + 1) hk
    obtain ⟨o, ho, hok⟩ := h.closed m hm k hmk
    exact ih o ho hok

end Pruning

end Exploration
