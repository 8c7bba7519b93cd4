import Mathlib.Algebra.BigOperators.Group.List.Basic
import Mathlib.Algebra.Group.Action.Defs
import Mathlib.Algebra.Order.BigOperators.Group.List
import Mathlib.Algebra.Order.Ring.Nat
import Mathlib.Data.List.Infix
import Mathlib.Tactic.Common

/-! Searching a tree whose nodes are words: what the open words promise of the
goals below them, in which order a queue takes them, and how much is left to do. -/

namespace TreeSearch

variable {α : Type*} {goals : Set (List α)} {openWords openWords' rest new : List (List α)}
  {g w : List α}

/-- Every goal lies below an open word. -/
def Covers (goals : Set (List α)) (openWords : List (List α)) : Prop :=
  ∀ g ∈ goals, ∃ w ∈ openWords, w <+: g

theorem covers_root : Covers goals [[]] :=
  fun _ _ => ⟨[], List.mem_cons_self, List.nil_prefix⟩

theorem Covers.exhausted (h : Covers goals []) : g ∉ goals := by
  intro hg
  obtain ⟨w, hw, -⟩ := h g hg
  exact absurd hw List.not_mem_nil

/-- Replacing a word that is no goal by the words one letter longer that lead to one. -/
theorem Covers.expand (h : Covers goals openWords) (hperm : openWords.Perm (w :: rest)) (hw : w ∉ goals)
    (hnew : ∀ g ∈ goals, ∀ a, w ++ [a] <+: g → w ++ [a] ∈ new) : Covers goals (rest ++ new) := by
  intro g hg
  obtain ⟨v, hv, hpre⟩ := h g hg
  rcases List.mem_cons.mp (hperm.mem_iff.mp hv) with rfl | hv
  · obtain ⟨tail, rfl⟩ := hpre
    cases tail with
    | nil =>
      rw [List.append_nil] at hg
      exact absurd hg hw
    | cons a tail =>
      have hpre : v ++ [a] <+: v ++ a :: tail := ⟨tail, by simp⟩
      exact ⟨v ++ [a], List.mem_append_right _ (hnew _ hg a hpre), hpre⟩
  · exact ⟨v, List.mem_append_left _ hv, hpre⟩

/-- The words of a queue: no word before a shorter one, and none more than a
letter longer than another. -/
structure Layered (openWords : List (List α)) : Prop where
  sorted : openWords.Pairwise fun v w => v.length ≤ w.length
  close : ∀ v ∈ openWords, ∀ w ∈ openWords, w.length ≤ v.length + 1

theorem layered_root : Layered [([] : List α)] := by
  constructor <;> simp

theorem Layered.expand (h : Layered (w :: rest)) (hnew : ∀ v ∈ new, v.length = w.length + 1) :
    Layered (rest ++ new) := by
  obtain ⟨hleast, hsorted⟩ := List.pairwise_cons.mp h.sorted
  have hle : ∀ v ∈ rest, w.length ≤ v.length ∧ v.length ≤ w.length + 1 := by
    intro v hv
    exact ⟨hleast v hv, h.close w List.mem_cons_self v (List.mem_cons_of_mem _ hv)⟩
  have hall : ∀ v ∈ rest ++ new, w.length ≤ v.length ∧ v.length ≤ w.length + 1 := by
    intro v hv
    rcases List.mem_append.mp hv with hv | hv
    · exact hle v hv
    · have := hnew v hv
      omega
  constructor
  · rw [List.pairwise_append]
    refine ⟨hsorted, List.pairwise_of_forall_mem_list fun u hu v hv => ?_, fun u hu v hv => ?_⟩
    · rw [hnew u hu, hnew v hv]
    · rw [hnew v hv]
      exact (hle u hu).2
  · intro u hu v hv
    have hu := (hall u hu).1
    have hv := (hall v hv).2
    omega

/-- The first word of a queue is no longer than any goal. -/
theorem Layered.le_goal (h : Layered (w :: rest)) (hcov : Covers goals (w :: rest)) (hg : g ∈ goals) :
    w.length ≤ g.length := by
  obtain ⟨v, hv, hpre⟩ := hcov g hg
  apply le_trans _ hpre.length_le
  rcases List.mem_cons.mp hv with rfl | hv
  · exact le_rfl
  · exact (List.pairwise_cons.mp h.sorted).1 v hv

/-- It is shorter where no open word is a goal. -/
theorem Layered.lt_goal (h : Layered (w :: rest)) (hcov : Covers goals (w :: rest))
    (hno : ∀ v ∈ w :: rest, v ∉ goals) (hg : g ∈ goals) : w.length < g.length := by
  obtain ⟨v, hv, hpre⟩ := hcov g hg
  have hne : v ≠ g := by
    rintro rfl
    exact hno v hv hg
  have hlt : v.length < g.length := by
    by_contra hge
    exact hne (hpre.eq_of_length_le (not_lt.mp hge))
  apply lt_of_le_of_lt _ hlt
  rcases List.mem_cons.mp hv with rfl | hv
  · exact le_rfl
  · exact (List.pairwise_cons.mp h.sorted).1 v hv

/-- The words of a tree of some branching and depth. -/
def size (branching : ℕ) : ℕ → ℕ
  | 0 => 0
  | depth + 1 => 1 + branching * size branching depth

/-- What there is left to do down to some depth. -/
def work (branching depth : ℕ) (openWords : List (List α)) : ℕ :=
  (openWords.map fun w => size branching (depth - w.length)).sum

/-- Expanding a word above that depth leaves less. -/
theorem work_expand {branching depth : ℕ} (hperm : openWords.Perm (w :: rest)) (hw : w.length < depth)
    (hlen : new.length ≤ branching) (hnew : ∀ v ∈ new, v.length = w.length + 1) :
    work branching depth (rest ++ new) < work branching depth openWords := by
  obtain ⟨k, hk⟩ : ∃ k, depth - w.length = k + 1 := ⟨depth - w.length - 1, by omega⟩
  have hsize : ∀ n ∈ new.map fun v => size branching (depth - v.length), n ≤ size branching k := by
    intro n hn
    obtain ⟨v, hv, rfl⟩ := List.mem_map.mp hn
    have hvk : depth - v.length = k := by
      rw [hnew v hv]
      omega
    rw [hvk]
  have hsum : work branching depth new ≤ branching * size branching k := by
    have h := List.sum_le_card_nsmul _ _ hsize
    rw [List.length_map, smul_eq_mul] at h
    exact h.trans (Nat.mul_le_mul_right _ hlen)
  have hleft : work branching depth (rest ++ new) =
      work branching depth rest + work branching depth new := by
    simp [work]
  have hright : work branching depth openWords =
      1 + branching * size branching k + work branching depth rest := by
    rw [work, (hperm.map _).sum_eq, List.map_cons, List.sum_cons, hk, size]
    rfl
  omega

end TreeSearch
