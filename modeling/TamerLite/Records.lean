import Mathlib.Algebra.Order.Ring.Rat
import Mathlib.Data.List.Basic

/-! Tables of what was seen and of the best value seen, updated entry by entry
while a class drops with every new entry. The order of the entries is immaterial. -/

namespace Records

variable {κ : Type*} [DecidableEq κ]

/-- Adds a key, and lowers the class if it was missing. -/
def note (cls : ℕ) (acc : ℕ × (κ → Bool)) (k : κ) : ℕ × (κ → Bool) :=
  if acc.2 k then acc else (min acc.1 cls, Function.update acc.2 k true)

/-- Raises the value of a key, and lowers the class if the value grew. -/
def improve (cls : ℕ) (acc : ℕ × (κ → Option ℚ)) (e : κ × ℚ) : ℕ × (κ → Option ℚ) :=
  if (acc.2 e.1).all (· < e.2) then
    (min acc.1 cls, Function.update acc.2 e.1 (some e.2))
  else acc

variable {cls n : ℕ} {s t u : κ → Option ℚ} {seen : κ → Bool}

theorem note_seen (ks : List κ) (k : κ) :
    (ks.foldl (note cls) (n, seen)).2 k = true ↔ seen k = true ∨ k ∈ ks := by
  induction ks generalizing n seen with
  | nil => simp
  | cons j ks ih =>
    rw [List.foldl_cons, note]
    split_ifs with hj
    · rw [ih, List.mem_cons]
      constructor
      · intro h
        exact h.imp id .inr
      · intro h
        rcases h with h | rfl | h
        · exact .inl h
        · exact .inl hj
        · exact .inr h
    · rw [ih, List.mem_cons]
      by_cases hk : k = j
      · simp [hk]
      · simp [hk]

theorem note_class (ks : List κ) : (ks.foldl (note cls) (n, seen)).1 =
    if ∃ k ∈ ks, seen k = false then min n cls else n := by
  induction ks generalizing n seen with
  | nil => simp
  | cons j ks ih =>
    rw [List.foldl_cons, note]
    by_cases hj : seen j = true
    · rw [if_pos hj, ih]
      simp [hj]
    · have hex : ∃ k ∈ j :: ks, seen k = false := ⟨j, List.mem_cons_self, by simpa using hj⟩
      rw [if_neg hj, ih, if_pos hex]
      split_ifs <;> omega

theorem note_congr {ks ks' : List κ} (h : ∀ k, k ∈ ks ↔ k ∈ ks') :
    ks.foldl (note cls) (n, seen) = ks'.foldl (note cls) (n, seen) := by
  apply Prod.ext
  · simp only [note_class, h]
  · funext k
    rw [Bool.eq_iff_iff, note_seen, note_seen, h]

/-- `t` holds the largest of the values of `s` and of the entries. -/
structure Best (s : κ → Option ℚ) (es : List (κ × ℚ)) (t : κ → Option ℚ) : Prop where
  kept : ∀ k v, s k = some v → ∃ w, t k = some w ∧ v ≤ w
  reached : ∀ e ∈ es, ∃ w, t e.1 = some w ∧ e.2 ≤ w
  attained : ∀ k w, t k = some w → s k = some w ∨ (k, w) ∈ es

theorem best_foldl (es : List (κ × ℚ)) : Best s es (es.foldl (improve cls) (n, s)).2 := by
  induction es generalizing n s with
  | nil =>
    exact ⟨fun k v h => ⟨v, h, le_rfl⟩, fun e he => absurd he List.not_mem_nil,
      fun k w h => .inl h⟩
  | cons e es ih =>
    rw [List.foldl_cons, improve]
    split_ifs with himp
    · have hb := ih (n := min n cls) (s := Function.update s e.1 (some e.2))
      have he : ∃ w, (es.foldl (improve cls) (min n cls, Function.update s e.1 (some e.2))).2 e.1 =
          some w ∧ e.2 ≤ w := hb.kept e.1 e.2 (by rw [Function.update_self])
      refine ⟨fun k v hv => ?_, fun f hf => ?_, fun k w hw => ?_⟩
      · by_cases hk : k = e.1
        · subst hk
          obtain ⟨w, hw, hle⟩ := he
          have hlt : v < e.2 := by simpa [hv] using himp
          exact ⟨w, hw, hlt.le.trans hle⟩
        · exact hb.kept k v (by rw [Function.update_of_ne hk, hv])
      · rcases List.mem_cons.mp hf with rfl | hf
        · exact he
        · exact hb.reached f hf
      · rcases hb.attained k w hw with h | h
        · by_cases hk : k = e.1
          · subst hk
            rw [Function.update_self, Option.some.injEq] at h
            subst h
            exact .inr List.mem_cons_self
          · rw [Function.update_of_ne hk] at h
            exact .inl h
        · exact .inr (List.mem_cons_of_mem _ h)
    · have hb := ih (n := n) (s := s)
      refine ⟨hb.kept, fun f hf => ?_, fun k w hw => ?_⟩
      · rcases List.mem_cons.mp hf with rfl | hf
        · rw [Option.all_eq_true] at himp
          push Not at himp
          obtain ⟨v, hv, hle⟩ := himp
          obtain ⟨w, hw, hvw⟩ := hb.kept _ v hv
          exact ⟨w, hw, (not_lt.mp (by simpa using hle)).trans hvw⟩
        · exact hb.reached f hf
      · exact (hb.attained k w hw).imp id (List.mem_cons_of_mem _)

omit [DecidableEq κ] in
theorem Best.le {es es' : List (κ × ℚ)} (h : Best s es t) (h' : Best s es' u)
    (hsub : es ⊆ es') {k : κ} {v : ℚ} (hv : t k = some v) : ∃ w, u k = some w ∧ v ≤ w := by
  rcases h.attained k v hv with hs | hm
  · exact h'.kept k v hs
  · exact h'.reached _ (hsub hm)

omit [DecidableEq κ] in
theorem Best.unique {es es' : List (κ × ℚ)} (h : Best s es t) (h' : Best s es' u)
    (hmem : ∀ e, e ∈ es ↔ e ∈ es') : t = u := by
  have hsub : es ⊆ es' := fun e he => (hmem e).mp he
  have hsup : es' ⊆ es := fun e he => (hmem e).mpr he
  funext k
  cases ht : t k with
  | some v =>
    obtain ⟨w, hw, hvw⟩ := h.le h' hsub ht
    obtain ⟨v', hv', hwv⟩ := h'.le h hsup hw
    obtain rfl := Option.some.inj (ht.symm.trans hv')
    rw [hw, le_antisymm hvw hwv]
  | none =>
    cases hu : u k with
    | none => rfl
    | some w =>
      obtain ⟨v, hv, -⟩ := h'.le h hsup hu
      rw [ht] at hv
      contradiction

theorem improve_class (es : List (κ × ℚ)) : (es.foldl (improve cls) (n, s)).1 =
    if ∃ e ∈ es, (s e.1).all (· < e.2) then min n cls else n := by
  induction es generalizing n s with
  | nil => simp
  | cons e es ih =>
    rw [List.foldl_cons, improve]
    by_cases himp : (s e.1).all (· < e.2) = true
    · have hex : ∃ f ∈ e :: es, (s f.1).all (· < f.2) = true := ⟨e, List.mem_cons_self, himp⟩
      rw [if_pos himp, ih, if_pos hex]
      split_ifs <;> omega
    · have hex : (∃ f ∈ e :: es, (s f.1).all (· < f.2) = true) ↔
          ∃ f ∈ es, (s f.1).all (· < f.2) = true := by
        rw [List.exists_mem_cons_iff]
        exact or_iff_right himp
      rw [if_neg himp, ih, if_congr hex rfl rfl]

theorem improve_congr {es es' : List (κ × ℚ)} (h : ∀ e, e ∈ es ↔ e ∈ es') :
    es.foldl (improve cls) (n, s) = es'.foldl (improve cls) (n, s) := by
  apply Prod.ext
  · simp only [improve_class, h]
  · exact (best_foldl es).unique (best_foldl es') h

end Records
