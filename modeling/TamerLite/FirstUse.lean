import Mathlib.Algebra.Order.BigOperators.Group.List
import Mathlib.Algebra.Order.Ring.Nat
import Mathlib.Logic.Equiv.Basic

/-! Words whose letters use objects, and an order in which the objects may be
used for the first time: where swapping neighbours keeps a word good, some good
word follows the order. -/

namespace FirstUse

variable {L O : Type*}

/-- The objects a letter uses, and the one to be used before each object. -/
structure Discipline (L O : Type*) where
  objects : L → List O
  prev : O → Option O
  rank : O → ℕ
  rank_lt : ∀ {o q : O}, prev o = some q → rank q < rank o

namespace Discipline

variable (D : Discipline L O)

/-- `a` may follow `done`. -/
def Allows (done : List L) (a : L) : Prop :=
  ∀ o ∈ D.objects a, ∀ q, D.prev o = some q → ∃ b ∈ a :: done, q ∈ D.objects b

/-- Every letter of `w` may follow `done` and the letters before it. -/
def Follows : List L → List L → Prop
  | _, [] => True
  | done, a :: w => D.Allows done a ∧ Follows (done ++ [a]) w

/-- With an object its predecessor is used too. -/
def Closed (done : List L) : Prop :=
  ∀ b ∈ done, ∀ o ∈ D.objects b, ∀ q, D.prev o = some q → ∃ b' ∈ done, q ∈ D.objects b'

variable {D} {done w : List L} {a : L}

theorem Allows.mono {done' : List L} (h : D.Allows done a) (hs : ∀ b ∈ done, b ∈ done') :
    D.Allows done' a := by
  intro o ho q hq
  obtain ⟨b, hb, hqb⟩ := h o ho q hq
  rcases List.mem_cons.mp hb with rfl | hb
  · exact ⟨b, List.mem_cons_self, hqb⟩
  · exact ⟨b, List.mem_cons_of_mem _ (hs b hb), hqb⟩

theorem closed_nil : D.Closed [] := fun _ hb => absurd hb List.not_mem_nil

theorem Closed.concat (h : D.Closed done) (ha : D.Allows done a) : D.Closed (done ++ [a]) := by
  intro b hb o ho q hq
  simp only [List.mem_append, List.mem_singleton] at hb ⊢
  rcases hb with hb | rfl
  · obtain ⟨b', hb', hqb⟩ := h b hb o ho q hq
    exact ⟨b', .inl hb', hqb⟩
  · obtain ⟨b', hb', hqb⟩ := ha o ho q hq
    rcases List.mem_cons.mp hb' with rfl | hb'
    · exact ⟨b', .inr rfl, hqb⟩
    · exact ⟨b', .inl hb', hqb⟩

theorem follows_concat : D.Follows done (w ++ [a]) ↔ D.Follows done w ∧ D.Allows (done ++ w) a := by
  induction w generalizing done with
  | nil => simp [Follows]
  | cons b w ih => simp [Follows, ih, and_assoc]

variable [DecidableEq O]

variable (D) in
/-- Swapping `q` and `o` in the letters keeps the good words good, and leaves
alone a letter that uses neither. -/
structure Swaps (Good : List L → Prop) (q o : O) (f : L → L) : Prop where
  objects : ∀ a, D.objects (f a) = (D.objects a).map (Equiv.swap q o)
  fixes : ∀ a, q ∉ D.objects a → o ∉ D.objects a → f a = a
  good : ∀ w, Good w → Good (w.map f)

variable {Good : List L → Prop}

/-- Swapping an object for its predecessor lowers what a letter uses. -/
theorem sum_rank_swap_lt {o q : O} (hq : D.prev o = some q) {l : List O} (ho : o ∈ l)
    (hn : q ∉ l) : ((l.map (Equiv.swap q o)).map D.rank).sum < (l.map D.rank).sum := by
  rw [List.map_map]
  have hle : ∀ x ∈ l, (D.rank ∘ Equiv.swap q o) x ≤ D.rank x := by
    intro x hx
    by_cases hxo : x = o
    · subst hxo
      simpa using (D.rank_lt hq).le
    · have hxq : x ≠ q := fun h => hn (h ▸ hx)
      simp [Equiv.swap_apply_of_ne_of_ne hxq hxo]
  refine List.sum_lt_sum _ _ hle ⟨o, ho, ?_⟩
  simpa using D.rank_lt hq

/-- The next letter can be renamed into one that may follow. -/
theorem exists_allows (hswap : ∀ o q, D.prev o = some q → ∃ f, D.Swaps Good q o f)
    (hc : D.Closed done) (hg : Good (done ++ a :: w)) :
    ∃ a' w', w'.length = w.length ∧ D.Allows done a' ∧ Good (done ++ a' :: w') := by
  induction hn : ((D.objects a).map D.rank).sum using Nat.strong_induction_on generalizing a w with
  | _ n ih =>
    by_cases ha : D.Allows done a
    · exact ⟨a, w, rfl, ha, hg⟩
    · unfold Allows at ha
      push Not at ha
      obtain ⟨o, ho, q, hq, hnone⟩ := ha
      obtain ⟨f, hf⟩ := hswap o q hq
      have hqa : q ∉ D.objects a := hnone a List.mem_cons_self
      have hqd : ∀ b ∈ done, q ∉ D.objects b := fun b hb => hnone b (List.mem_cons_of_mem _ hb)
      have hod : ∀ b ∈ done, o ∉ D.objects b := by
        intro b hb hob
        obtain ⟨b', hb', hqb⟩ := hc b hb o hob q hq
        exact hqd b' hb' hqb
      -- neither object is in use yet, so the swap leaves the past alone
      have hdone : done.map f = done := by
        conv_rhs => rw [← List.map_id done]
        exact List.map_congr_left fun b hb => hf.fixes b (hqd b hb) (hod b hb)
      have hg' : Good (done ++ f a :: w.map f) := by
        have := hf.good _ hg
        rwa [List.map_append, List.map_cons, hdone] at this
      have hlt : ((D.objects (f a)).map D.rank).sum < n := by
        rw [hf.objects, ← hn]
        exact sum_rank_swap_lt hq ho hqa
      obtain ⟨a', w', hl, hall, hgood⟩ := ih _ hlt hg' rfl
      exact ⟨a', w', by rw [hl, List.length_map], hall, hgood⟩

variable (D) in
/-- A good word can be renamed, from some point on, into one that follows the order. -/
theorem exists_follows (hswap : ∀ o q, D.prev o = some q → ∃ f, D.Swaps Good q o f)
    (hc : D.Closed done) (hg : Good (done ++ w)) :
    ∃ w', w'.length = w.length ∧ D.Follows done w' ∧ Good (done ++ w') := by
  induction hn : w.length generalizing done w with
  | zero => exact ⟨[], rfl, trivial, by rwa [List.length_eq_zero_iff.mp hn] at hg⟩
  | succ n ih =>
    obtain ⟨a, w, rfl⟩ := List.exists_cons_of_length_eq_add_one hn
    obtain ⟨a', v, hl, hall, hgood⟩ := exists_allows hswap hc hg
    rw [List.append_cons] at hgood
    obtain ⟨w', hl', hfol, hgood'⟩ := ih (hc.concat hall) hgood (by simpa [hl] using hn)
    exact ⟨a' :: w', by simp [hl'], ⟨hall, hfol⟩, by rwa [List.append_cons]⟩

end Discipline

end FirstUse
