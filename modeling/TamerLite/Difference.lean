import Mathlib.Algebra.Order.Ring.Rat
import Mathlib.Algebra.BigOperators.Group.List.Basic
import Mathlib.Algebra.Order.Floor.Ring
import Mathlib.Data.Rat.Floor
import Mathlib.Data.Finset.Image
import Mathlib.Data.Finset.Order
import Mathlib.Data.Set.Finite.Lemmas
import Mathlib.Tactic.Linarith

/-! Systems of difference constraints `x - y ≤ b` over arbitrary time points,
their solutions, and the chains of points kept apart by a minimal gap. -/

namespace Difference

/-- The constraint `x - y ≤ b`. -/
structure Constraint (ν K : Type*) where
  x : ν
  y : ν
  b : K
deriving DecidableEq, Repr

/-- Bounds from both sides leave a value below `m`. -/
theorem exists_le_iff {K : Type*} [LinearOrder K] (lowers : Set K) {uppers : Set K}
    (hu : uppers.Finite) (m : K) :
    (∃ d ≤ m, (∀ x ∈ lowers, x ≤ d) ∧ ∀ y ∈ uppers, d ≤ y) ↔
      (∀ x ∈ lowers, x ≤ m) ∧ ∀ x ∈ lowers, ∀ y ∈ uppers, x ≤ y := by
  constructor
  · rintro ⟨d, hd, hlo, hup⟩
    exact ⟨fun x hx => (hlo x hx).trans hd, fun x hx y hy => (hlo x hx).trans (hup y hy)⟩
  · rintro ⟨hm, hle⟩
    obtain ⟨d, hd, hmin⟩ :=
      Set.exists_min_image (insert m uppers) id (hu.insert m) ⟨m, Set.mem_insert m uppers⟩
    refine ⟨d, hmin m (Set.mem_insert m uppers), fun x hx => ?_,
      fun y hy => hmin y (Set.mem_insert_of_mem m hy)⟩
    rcases Set.mem_insert_iff.mp hd with rfl | hd
    · exact hm x hx
    · exact hle x hx d hd

section Solutions

variable {ν μ K : Type*} [AddCommGroup K] [LinearOrder K]

/-- The assignment `τ` satisfies every constraint of `cs`. -/
def Solves (τ : ν → K) (cs : List (Constraint ν K)) : Prop :=
  ∀ c ∈ cs, τ c.x - τ c.y ≤ c.b

instance (τ : ν → K) (cs : List (Constraint ν K)) : Decidable (Solves τ cs) :=
  inferInstanceAs (Decidable (∀ c ∈ cs, _))

def Consistent (cs : List (Constraint ν K)) : Prop := ∃ τ : ν → K, Solves τ cs

variable {τ σ : ν → K} {cs ds : List (Constraint ν K)}

@[simp] theorem solves_nil : Solves τ [] := fun _ h => absurd h List.not_mem_nil

@[simp] theorem solves_cons {c : Constraint ν K} :
    Solves τ (c :: cs) ↔ τ c.x - τ c.y ≤ c.b ∧ Solves τ cs := by
  simp [Solves]

@[simp] theorem solves_append : Solves τ (cs ++ ds) ↔ Solves τ cs ∧ Solves τ ds := by
  simp only [Solves, List.mem_append]
  exact ⟨fun h => ⟨fun c hc => h c (.inl hc), fun c hc => h c (.inr hc)⟩,
    fun h c hc => hc.elim (h.1 c) (h.2 c)⟩

theorem Solves.subset (h : Solves τ ds) (hs : cs ⊆ ds) : Solves τ cs := fun c hc => h c (hs hc)

theorem Consistent.subset (h : Consistent ds) (hs : cs ⊆ ds) : Consistent cs :=
  h.imp fun _ hτ => hτ.subset hs

theorem Solves.congr (h : Solves τ cs) (he : ∀ c ∈ cs, σ c.x = τ c.x ∧ σ c.y = τ c.y) :
    Solves σ cs := by
  intro c hc
  rw [(he c hc).1, (he c hc).2]
  exact h c hc

variable [IsOrderedAddMonoid K]

/-- The constraints putting `y - x` into the interval from `lower` to `upper`. -/
def interval (x y : ν) (lower upper : K) : List (Constraint ν K) :=
  [⟨x, y, -lower⟩, ⟨y, x, upper⟩]

theorem solves_interval {x y : ν} {lower upper : K} :
    Solves τ (interval x y lower upper) ↔ lower ≤ τ y - τ x ∧ τ y - τ x ≤ upper := by
  simp only [interval, solves_cons, solves_nil, and_true]
  constructor <;> intro h <;> refine ⟨?_, h.2⟩
  · simpa using neg_le_neg h.1
  · simpa using neg_le_neg h.1

theorem solves_interval_self {x y : ν} {d : K} :
    Solves τ (interval x y d d) ↔ τ y = τ x + d := by
  rw [solves_interval]
  constructor
  · intro h
    rw [← le_antisymm h.2 h.1]
    abel
  · intro h
    rw [h]
    simp

end Solutions

section Chains

variable {α K : Type*} [AddCommGroup K] [LinearOrder K] [IsOrderedAddMonoid K]

/-- `q` comes no earlier than `p`, and at least `ε` later when the two are in `m`. -/
def Follows (m : α → α → Prop) (ε : K) (t : α → K) (p q : α) : Prop :=
  t p ≤ t q ∧ (m p q → t p + ε ≤ t q)

instance {m : α → α → Prop} [DecidableRel m] {ε : K} {t : α → K} (p q : α) :
    Decidable (Follows m ε t p q) := inferInstanceAs (Decidable (_ ∧ _))

theorem Follows.of_le {m : α → α → Prop} {ε : K} {t : α → K} {p q : α}
    (hε : 0 ≤ ε) (h : t p + ε ≤ t q) : Follows m ε t p q :=
  ⟨(le_add_of_nonneg_right hε).trans h, fun _ => h⟩

/-- A point following one that is at least as late follows the earlier one by
as much, which is why old points of a chain need no edge of their own. -/
theorem Follows.of_earlier {m : α → α → Prop} {ε : K} {t : α → K} {o p q : α}
    (hop : t o ≤ t p) (hε : 0 ≤ ε) (hpq : t p + ε ≤ t q) : Follows m ε t o q :=
  .of_le hε ((add_le_add_left hop ε).trans hpq)

/-- The scan over a chain, latest point first, that keeps one edge to the
immediate predecessor and one to the latest point `m` separates. -/
def recent (m : α → Bool) : Bool → List α → List (α × Bool)
  | _, [] => []
  | isPredecessor, p :: ps =>
    if m p then [(p, true)]
    else if isPredecessor then (p, false) :: recent m false ps else recent m false ps

theorem recent_sound {m : α → Bool} {ε : K} {t : α → K} {u : K} (hε : 0 ≤ ε)
    (ps : List α) (isPredecessor : Bool)
    (hchain : ps.Pairwise (fun q p => t p ≤ t q))
    (hfirst : isPredecessor = false → ∀ p ∈ ps, t p ≤ u)
    (h : ∀ e ∈ recent m isPredecessor ps, t e.1 + (if e.2 then ε else 0) ≤ u) :
    ∀ p ∈ ps, t p ≤ u ∧ (m p = true → t p + ε ≤ u) := by
  induction ps generalizing isPredecessor with
  | nil => simp
  | cons p ps ih =>
    have hc := List.pairwise_cons.mp hchain
    by_cases hm : m p = true
    · have hp : t p + ε ≤ u := by simpa [recent, hm] using h
      intro q hq
      have hqp : t q ≤ t p := by
        rcases List.mem_cons.mp hq with rfl | hq
        · exact le_rfl
        · exact hc.1 q hq
      have hqu : t q + ε ≤ u := (add_le_add_left hqp ε).trans hp
      exact ⟨(le_add_of_nonneg_right hε).trans hqu, fun _ => hqu⟩
    · have hpu : t p ≤ u := by
        cases isPredecessor with
        | true => simpa using h (p, false) (by simp [recent, hm])
        | false => exact hfirst rfl p (by simp)
      have hrest : ∀ e ∈ recent m false ps, t e.1 + (if e.2 then ε else 0) ≤ u := by
        intro e he
        apply h e
        cases isPredecessor <;> simp [recent, hm, he]
      have hps := ih false hc.2 (fun _ q hq => (hc.1 q hq).trans hpu) hrest
      intro q hq
      rcases List.mem_cons.mp hq with rfl | hq
      · exact ⟨hpu, fun hmq => absurd hmq hm⟩
      · exact hps q hq

omit [IsOrderedAddMonoid K] in
theorem recent_complete {m : α → Bool} {ε : K} {t : α → K} {u : K}
    (ps : List α) (isPredecessor : Bool)
    (h : ∀ p ∈ ps, t p ≤ u ∧ (m p = true → t p + ε ≤ u)) :
    ∀ e ∈ recent m isPredecessor ps, t e.1 + (if e.2 then ε else 0) ≤ u := by
  induction ps generalizing isPredecessor with
  | nil => simp [recent]
  | cons p ps ih =>
    have hps := ih false (fun q hq => h q (by simp [hq]))
    by_cases hm : m p = true
    · simpa [recent, hm] using (h p (by simp)).2 hm
    · cases isPredecessor with
      | true =>
        rw [recent, if_neg hm, if_pos rfl]
        intro e he
        rcases List.mem_cons.mp he with rfl | he
        · simpa using (h p (by simp)).1
        · exact hps e he
      | false => simpa [recent, hm] using hps

end Chains

section Least

variable {ν : Type*} {cs : List (Constraint ν ℚ)}

/-- Every bound of `cs` is a multiple of `1 / N`. -/
def OnGrid (N : ℕ) (cs : List (Constraint ν ℚ)) : Prop := ∀ c ∈ cs, ∃ b : ℤ, (N : ℚ) * c.b = b

theorem exists_scale (cs : List (Constraint ν ℚ)) : ∃ N : ℕ, 0 < N ∧ OnGrid N cs := by
  induction cs with
  | nil => exact ⟨1, one_pos, fun c hc => absurd hc List.not_mem_nil⟩
  | cons c cs ih =>
    obtain ⟨N, hN, h⟩ := ih
    refine ⟨c.b.den * N, Nat.mul_pos c.b.pos hN, fun d hd => ?_⟩
    rcases List.mem_cons.mp hd with rfl | hd
    · refine ⟨N * d.b.num, ?_⟩
      push_cast
      rw [mul_assoc, mul_left_comm, Rat.den_mul_eq_num]
    · obtain ⟨b, hb⟩ := h d hd
      exact ⟨c.b.den * b, by push_cast; rw [mul_assoc, hb]⟩

/-- On a grid containing every bound, rounding a solution down is a solution. -/
theorem Solves.floor {N : ℕ} (hN : 0 < N) (hb : OnGrid N cs) {τ : ν → ℚ} (h : Solves τ cs) :
    Solves (fun v => (⌊N * τ v⌋ : ℚ) / N) cs := by
  intro c hc
  obtain ⟨b, hb⟩ := hb c hc
  have hN' : (0 : ℚ) < N := by exact_mod_cast hN
  have hle : ⌊N * τ c.x⌋ ≤ ⌊N * τ c.y⌋ + b := by
    rw [← Int.floor_add_intCast]
    apply Int.floor_le_floor
    rw [← hb, ← mul_add]
    have := h c hc
    gcongr
    linarith
  have hle' : (⌊N * τ c.x⌋ : ℚ) ≤ ⌊N * τ c.y⌋ + N * c.b := by
    rw [hb]
    exact_mod_cast hle
  change (⌊N * τ c.x⌋ : ℚ) / N - (⌊N * τ c.y⌋ : ℚ) / N ≤ c.b
  rw [← sub_div, div_le_iff₀ hN']
  linarith

theorem exists_nonneg (h : Consistent cs) : ∃ τ : ν → ℚ, Solves τ cs ∧ ∀ v, 0 ≤ τ v := by
  obtain ⟨τ, hτ⟩ := h
  classical
  let vs := cs.flatMap fun c => [c.x, c.y]
  obtain ⟨M, hM⟩ := Finset.exists_le (vs.toFinset.image fun v => -τ v)
  refine ⟨fun v => if v ∈ vs then τ v + M else 0, fun c hc => ?_, fun v => ?_⟩
  · have hx : c.x ∈ vs := List.mem_flatMap.mpr ⟨c, hc, by simp⟩
    have hy : c.y ∈ vs := List.mem_flatMap.mpr ⟨c, hc, by simp⟩
    simpa [hx, hy] using hτ c hc
  · change 0 ≤ if v ∈ vs then τ v + M else 0
    split_ifs with hv
    · have := hM (-τ v) (Finset.mem_image_of_mem _ (List.mem_toFinset.mpr hv))
      linarith
    · exact le_rfl

/-- A consistent system has an earliest non-negative solution. -/
theorem exists_least (h : Consistent cs) : ∃ τ : ν → ℚ, Solves τ cs ∧ (∀ v, 0 ≤ τ v) ∧
    ∀ σ : ν → ℚ, Solves σ cs → (∀ v, 0 ≤ σ v) → ∀ v, τ v ≤ σ v := by
  obtain ⟨N, hN, hb⟩ := exists_scale cs
  have hN' : (0 : ℚ) < N := by exact_mod_cast hN
  let P : ν → ℕ → Prop := fun v n => ∃ σ : ν → ℚ, Solves σ cs ∧ (∀ w, 0 ≤ σ w) ∧ ⌊N * σ v⌋ = n
  have hP : ∀ {σ}, Solves σ cs → (∀ w, 0 ≤ σ w) → ∀ v, P v ⌊N * σ v⌋.toNat := by
    intro σ hσ h0 v
    refine ⟨σ, hσ, h0, (Int.toNat_of_nonneg (Int.floor_nonneg.mpr ?_)).symm⟩
    exact mul_nonneg hN'.le (h0 v)
  obtain ⟨σ₀, hσ₀, h0⟩ := exists_nonneg h
  have hex : ∀ v, ∃ n, P v n := fun v => ⟨_, hP hσ₀ h0 v⟩
  classical
  refine ⟨fun v => (Nat.find (hex v) : ℚ) / N, fun c hc => ?_, fun v => by positivity, ?_⟩
  · obtain ⟨σ, hσ, h0, hy⟩ := Nat.find_spec (hex c.y)
    have hx : (Nat.find (hex c.x) : ℚ) ≤ ⌊N * σ c.x⌋ := by
      have := Nat.find_min' (hex c.x) (hP hσ h0 c.x)
      have hn : (0 : ℤ) ≤ ⌊N * σ c.x⌋ := Int.floor_nonneg.mpr (mul_nonneg hN'.le (h0 _))
      have hz : (Nat.find (hex c.x) : ℤ) ≤ ⌊N * σ c.x⌋ := by omega
      exact_mod_cast hz
    have hy' : (Nat.find (hex c.y) : ℚ) = ⌊N * σ c.y⌋ := by rw [hy]; simp
    have hf := hσ.floor hN hb c hc
    change (⌊N * σ c.x⌋ : ℚ) / N - (⌊N * σ c.y⌋ : ℚ) / N ≤ c.b at hf
    change (Nat.find (hex c.x) : ℚ) / N - (Nat.find (hex c.y) : ℚ) / N ≤ c.b
    rw [hy']
    have : (Nat.find (hex c.x) : ℚ) / N ≤ ⌊N * σ c.x⌋ / N := by gcongr
    linarith
  · intro σ hσ h0 v
    have hle := Nat.find_min' (hex v) (hP hσ h0 v)
    have hn : (0 : ℤ) ≤ ⌊N * σ v⌋ := Int.floor_nonneg.mpr (mul_nonneg hN'.le (h0 _))
    have hz : (Nat.find (hex v) : ℤ) ≤ ⌊N * σ v⌋ := by omega
    have hq : (Nat.find (hex v) : ℚ) ≤ ⌊N * σ v⌋ := by exact_mod_cast hz
    rw [div_le_iff₀ hN', mul_comm]
    exact hq.trans (Int.floor_le _)

end Least

end Difference
