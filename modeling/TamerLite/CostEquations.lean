import Mathlib.Data.ENat.Lattice
import Mathlib.Order.FixedPoints

/-! Cost equations: a condition costs what it costs from the start, or a weight
more than the precondition of an operator that offers it. What they ask for is
the least solution. -/

namespace CostEquations

variable {L O : Type*} {f : (L → ℕ∞) → ℕ∞} {x y : L → ℕ∞} {h : ℕ∞}

/-- A cost that depends only on what costs no more than it. -/
def Local (f : (L → ℕ∞) → ℕ∞) : Prop :=
  ∀ x y, (∀ l, x l ≤ f x → y l ≤ x l) → f y ≤ f x

theorem Local.mono (hf : Local f) (hxy : ∀ l, y l ≤ x l) : f y ≤ f x :=
  hf x y fun l _ => hxy l

/-- Two tables of costs that differ above `h` only. -/
def AgreeUpTo (h : ℕ∞) (x y : L → ℕ∞) : Prop :=
  ∀ l, (x l ≤ h → y l = x l) ∧ (y l ≤ h → x l = y l)

theorem AgreeUpTo.symm (hxy : AgreeUpTo h x y) : AgreeUpTo h y x := fun l => (hxy l).symm

theorem Local.eq_of_agree (hf : Local f) (hxy : AgreeUpTo h x y) (hle : f x ≤ h) : f y = f x := by
  have hyx : f y ≤ f x := hf x y fun l hl => ((hxy l).1 (hl.trans hle)).le
  exact hyx.antisymm (hf y x fun l hl => ((hxy l).2 (hl.trans (hyx.trans hle))).le)

/-- What the conditions cost from the start, what an operator's precondition
costs, and which operators offer a condition at which weight. -/
structure System (L O : Type*) where
  initial : L → ℕ∞
  precondition : O → (L → ℕ∞) → ℕ∞
  offers : L → Set (ℕ × O)
  isLocal : ∀ o, Local (precondition o)

namespace System

variable (S : System L O)

/-- The right-hand side of the equations. -/
noncomputable def next (x : L → ℕ∞) (l : L) : ℕ∞ :=
  min (S.initial l) (sInf ((fun p : ℕ × O => p.1 + S.precondition p.2 x) '' S.offers l))

theorem next_mono : Monotone S.next := by
  intro x y hxy l
  refine le_min (min_le_left _ _) (le_sInf ?_)
  rintro _ ⟨p, hp, rfl⟩
  have hmem : (p.1 : ℕ∞) + S.precondition p.2 x ∈
      (fun p : ℕ × O => (p.1 : ℕ∞) + S.precondition p.2 x) '' S.offers l := ⟨p, hp, rfl⟩
  calc S.next x l ≤ p.1 + S.precondition p.2 x := (min_le_right _ _).trans (sInf_le hmem)
    _ ≤ p.1 + S.precondition p.2 y := by gcongr; exact (S.isLocal p.2).mono hxy

/-- The least solution. -/
noncomputable def least : L → ℕ∞ := OrderHom.lfp ⟨S.next, S.next_mono⟩

theorem next_least : S.next S.least = S.least := OrderHom.map_lfp ⟨S.next, S.next_mono⟩

variable {S} {l : L} {p : ℕ × O}

theorem le_initial (hx : S.next x = x) (l : L) : x l ≤ S.initial l := by
  rw [← congrFun hx l]
  exact min_le_left _ _

theorem le_offer (hx : S.next x = x) (hp : p ∈ S.offers l) : x l ≤ p.1 + S.precondition p.2 x := by
  rw [← congrFun hx l]
  exact (min_le_right _ _).trans (sInf_le ⟨p, hp, rfl⟩)

/-- A finite cost comes from the start or from an operator. -/
theorem exists_source (hx : S.next x = x) (hl : x l ≠ ⊤) :
    x l = S.initial l ∨ ∃ p ∈ S.offers l, x l = p.1 + S.precondition p.2 x := by
  have heq := congrFun hx l
  rcases min_choice (S.initial l)
    (sInf ((fun p : ℕ × O => (p.1 : ℕ∞) + S.precondition p.2 x) '' S.offers l)) with h | h
  · exact .inl (heq.symm.trans h)
  · refine .inr ?_
    have hinf := heq.symm.trans h
    have hne : ((fun p : ℕ × O => (p.1 : ℕ∞) + S.precondition p.2 x) '' S.offers l).Nonempty := by
      by_contra hempty
      rw [Set.not_nonempty_iff_eq_empty.mp hempty, sInf_empty] at hinf
      exact hl hinf
    obtain ⟨p, hp, hpeq⟩ := csInf_mem hne
    exact ⟨p, hp, hinf.trans hpeq.symm⟩

/-- Every operator makes what it offers dearer than its precondition. -/
def Positive (S : System L O) : Prop := ∀ l, ∀ p ∈ S.offers l, 0 < p.1

/-- What an offer builds on costs less than what it gives. -/
theorem precondition_lt (hS : S.Positive) (hp : p ∈ S.offers l)
    (hl : x l = p.1 + S.precondition p.2 x) (hfin : x l ≠ ⊤) : S.precondition p.2 x < x l := by
  have hpos : (0 : ℕ∞) < p.1 := by exact_mod_cast hS l p hp
  have hpre : S.precondition p.2 x ≠ ⊤ := by
    intro htop
    rw [hl, htop, add_top] at hfin
    exact hfin rfl
  rw [hl]
  exact ENat.lt_add_left hpre hpos

end System

end CostEquations
