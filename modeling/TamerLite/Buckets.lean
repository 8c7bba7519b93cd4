import Mathlib.Algebra.Order.Group.Multiset
import Mathlib.Data.Finmap
import TamerLite.Encoder

/-! What the buckets of an action collect, and where in the action's events the
conditions of a compression-safe action end up. -/

namespace TamerLite

namespace Buckets

variable {α : Type*} {g : Contents → List α} {b : Buckets} {d : ℚ} {c : α}

/-- The bucket at `d` collects `c`, among its conditions, start conditions and so on. -/
def Has (b : Buckets) (g : Contents → List α) (d : ℚ) (c : α) : Prop :=
  ∃ v, b.lookup d = some v ∧ c ∈ g v.2

theorem not_has_empty : ¬ Has ∅ g d c := fun h => by
  obtain ⟨v, hv, -⟩ := h
  simp at hv

theorem has_addToBucket (hg : ∀ x y c, c ∈ g (x.append y) ↔ c ∈ g x ∨ c ∈ g y) (p : ℚ × UPTiming × Contents) :
    Has (addToBucket b p) g d c ↔ Has b g d c ∨ p.1 = d ∧ c ∈ g p.2.2 := by
  by_cases hd : p.1 = d
  · subst hd
    cases hl : b.lookup p.1 with
    | none => simp [Has, addToBucket, hl]
    | some v => simp [Has, addToBucket, hl, hg]
  · have hne : d ≠ p.1 := fun h => hd h.symm
    cases hl : b.lookup p.1 with
    | none => simp [Has, addToBucket, hl, AList.lookup_insert_ne hne, hd]
    | some v => simp [Has, addToBucket, hl, AList.lookup_insert_ne hne, hd]

theorem has_foldl (hg : ∀ x y c, c ∈ g (x.append y) ↔ c ∈ g x ∨ c ∈ g y)
    (l : List (ℚ × UPTiming × Contents)) :
    Has (l.foldl addToBucket b) g d c ↔
      Has b g d c ∨ ∃ p ∈ l, p.1 = d ∧ c ∈ g p.2.2 := by
  induction l generalizing b with
  | nil => simp
  | cons p l ih =>
    rw [List.foldl_cons, ih, has_addToBucket hg, or_assoc]
    simp only [List.mem_cons, or_and_right, exists_or, exists_eq_left]

theorem mem_addToBucket (p : ℚ × UPTiming × Contents) : d ∈ addToBucket b p ↔ d ∈ b ∨ p.1 = d := by
  unfold addToBucket
  split <;> rw [AList.mem_insert, or_comm, eq_comm]

theorem mem_foldl (l : List (ℚ × UPTiming × Contents)) :
    d ∈ l.foldl addToBucket b ↔ d ∈ b ∨ ∃ p ∈ l, p.1 = d := by
  induction l generalizing b with
  | nil => simp
  | cons p l ih =>
    rw [List.foldl_cons, ih, mem_addToBucket, or_assoc]
    simp only [List.mem_cons, or_and_right, exists_or, exists_eq_left]

/-- Each bucket keeps the timing it was made with. -/
theorem timing_foldl {P : ℚ → UPTiming → Prop} {l : List (ℚ × UPTiming × Contents)}
    (hl : ∀ p ∈ l, P p.1 p.2.1) (hb : ∀ d v, b.lookup d = some v → P d v.1) {v : UPTiming × Contents}
    (h : (l.foldl addToBucket b).lookup d = some v) : P d v.1 := by
  induction l generalizing b with
  | nil => exact hb d v h
  | cons p l ih =>
    refine ih (fun q hq => hl q (List.mem_cons_of_mem _ hq)) (fun d v hv => ?_) h
    have hp := hl p List.mem_cons_self
    by_cases hd : d = p.1
    · subst hd
      cases hlook : b.lookup p.1 with
      | none =>
        rw [addToBucket, hlook, AList.lookup_insert] at hv
        obtain rfl := Option.some.inj hv
        exact hp
      | some w =>
        have hw := hb p.1 w hlook
        rw [addToBucket, hlook, AList.lookup_insert] at hv
        obtain rfl := Option.some.inj hv
        exact hw
    · refine hb d v ?_
      unfold addToBucket at hv
      split at hv <;> rwa [AList.lookup_insert_ne hd] at hv

/-- The entries by increasing delay. -/
def sorted (b : Buckets) : List (Sigma fun _ : ℚ => UPTiming × Contents) :=
  b.entries.insertionSort fun p q => p.1 ≤ q.1

theorem mem_sorted {p : Sigma fun _ : ℚ => UPTiming × Contents} :
    p ∈ b.sorted ↔ b.lookup p.1 = some p.2 := by
  rw [sorted, List.mem_insertionSort]
  exact AList.mem_lookup_iff.symm

theorem sorted_lt {j k : ℕ} {p q : Sigma fun _ : ℚ => UPTiming × Contents} (hjk : j < k)
    (hq : b.sorted[j]? = some q) (hp : b.sorted[k]? = some p) : q.1 < p.1 := by
  have hsort := List.pairwise_insertionSort (fun p q : Sigma fun _ : ℚ => UPTiming × Contents =>
    p.1 ≤ q.1) b.entries
  have hperm := List.perm_insertionSort (fun p q : Sigma fun _ : ℚ => UPTiming × Contents =>
    p.1 ≤ q.1) b.entries
  have hne : b.sorted.Pairwise fun p q => p.1 ≠ q.1 :=
    (List.pairwise_map.mp b.nodupKeys).perm hperm.symm fun hpq => Ne.symm hpq
  obtain ⟨hk, rfl⟩ := List.getElem?_eq_some_iff.mp hp
  obtain ⟨hj, rfl⟩ := List.getElem?_eq_some_iff.mp hq
  exact lt_of_le_of_ne (List.pairwise_iff_getElem.mp hsort _ _ hj hk hjk)
    (List.pairwise_iff_getElem.mp hne _ _ hj hk hjk)

theorem sortBuckets_eq_some {k : ℕ} {v : UPTiming × Contents} :
    (sortBuckets b)[k]? = some v ↔ ∃ d, b.sorted[k]? = some ⟨d, v⟩ := by
  rw [sortBuckets, List.getElem?_map, Option.map_eq_some_iff]
  constructor
  · intro h
    obtain ⟨p, hp, rfl⟩ := h
    exact ⟨p.1, hp⟩
  · intro h
    obtain ⟨d, hd⟩ := h
    exact ⟨_, hd, rfl⟩

/-- With nothing before it, the bucket at `0` is the first one. -/
theorem sorted_zero {v : UPTiming × Contents} (h0 : b.lookup 0 = some v)
    (hnn : ∀ d w, b.lookup d = some w → 0 ≤ d) : b.sorted[0]? = some ⟨0, v⟩ := by
  obtain ⟨k, hk⟩ := List.mem_iff_getElem?.mp ((mem_sorted (p := ⟨0, v⟩)).mpr h0)
  cases k with
  | zero => exact hk
  | succ k =>
    obtain ⟨hlt, -⟩ := List.getElem?_eq_some_iff.mp hk
    have hq := List.getElem?_eq_getElem (Nat.lt_of_le_of_lt (Nat.zero_le _) hlt)
    exact absurd (sorted_lt k.succ_pos hq hk)
      (not_lt.mpr (hnn _ _ (mem_sorted.mp (List.mem_of_getElem? hq))))

end Buckets

namespace DurativeAction

variable {α : Type*} {g : Contents → List α} {conj : List FNode → FNode} {a : DurativeAction}
  {d q : ℚ} {c : α}

theorem has_fromStart (hg : ∀ x y c, c ∈ g (x.append y) ↔ c ∈ g x ∨ c ∈ g y) :
    (a.fromStart conj).Has g d c ↔
      ∃ p ∈ a.actionEvents conj, p.1.isFromStart = true ∧ p.1.delay = d ∧ c ∈ g p.2 := by
  rw [fromStart, Buckets.has_foldl hg]
  simp [Buckets.not_has_empty, keyed, and_assoc]

theorem has_fromEnd (hg : ∀ x y c, c ∈ g (x.append y) ↔ c ∈ g x ∨ c ∈ g y) :
    (a.fromEnd conj).Has g d c ↔
      ∃ p ∈ a.actionEvents conj, p.1.isFromStart = false ∧ p.1.delay = d ∧ c ∈ g p.2 := by
  rw [fromEnd, Buckets.has_foldl hg]
  simp [Buckets.not_has_empty, keyed, and_assoc]

theorem has_folded (hg : ∀ x y c, c ∈ g (x.append y) ↔ c ∈ g x ∨ c ∈ g y) (b : Buckets) :
    Buckets.Has ((foldedEnd q b).foldl addToBucket (a.fromStart conj)) g d c ↔
      (a.fromStart conj).Has g d c ∨ b.Has g (d - q) c := by
  rw [Buckets.has_foldl hg]
  refine or_congr_right ?_
  simp only [foldedEnd, List.mem_map, Buckets.Has]
  constructor
  · intro h
    obtain ⟨_, ⟨p, hp, rfl⟩, rfl, hc⟩ := h
    exact ⟨p.2, AList.mem_lookup_iff.mpr (by simpa using hp), hc⟩
  · intro h
    obtain ⟨v, hv, hc⟩ := h
    exact ⟨_, ⟨⟨d - q, v⟩, AList.mem_lookup_iff.mp hv, rfl⟩, by ring, hc⟩

end DurativeAction

/-- The buckets from the start, with one at the start. -/
def Buckets.withStart (b : Buckets) : Buckets :=
  if 0 ∈ b then b else b.insert 0 (⟨.start, 0⟩, {})

namespace Buckets

variable {α : Type*} {g : Contents → List α} {b : Buckets} {d : ℚ} {c : α}

theorem has_withStart (h : ∀ c, c ∉ g {}) : b.withStart.Has g d c ↔ b.Has g d c := by
  unfold withStart
  split_ifs with h0
  · rfl
  · by_cases hd : d = 0
    · subst hd
      simp [Has, AList.lookup_eq_none.mpr h0, h]
    · simp [Has, AList.lookup_insert_ne hd]

theorem sorted_withStart (hnn : ∀ d v, b.lookup d = some v → 0 ≤ d) :
    ∃ v, b.withStart.sorted[0]? = some ⟨0, v⟩ := by
  by_cases h0 : 0 ∈ b
  · rw [withStart, if_pos h0]
    obtain ⟨v, hv⟩ := Option.isSome_iff_exists.mp (AList.lookup_isSome.mpr h0)
    exact ⟨v, sorted_zero hv hnn⟩
  · rw [withStart, if_neg h0]
    refine ⟨_, sorted_zero (AList.lookup_insert b) fun d w hd => ?_⟩
    by_cases hd0 : d = 0
    · exact hd0.ge
    · rw [AList.lookup_insert_ne hd0] at hd
      exact hnn d w hd

end Buckets

/-! ### How often something is collected -/

namespace Buckets

variable {α : Type*} {g : Contents → List α} {b : Buckets}

/-- What the entries with a delay in `f` collect. -/
def gathered (f : ℚ → Bool) (g : Contents → List α) (l : List (ℚ × UPTiming × Contents)) :
    Multiset α :=
  (l.map fun p => if f p.1 then (g p.2.2 : Multiset α) else 0).sum

/-- What the buckets with a delay in `f` collect. -/
def gather (f : ℚ → Bool) (g : Contents → List α) (b : Buckets) : Multiset α :=
  gathered f g (b.entries.map fun p => (p.1, p.2))

theorem gather_insert (f : ℚ → Bool) (d : ℚ) (v : UPTiming × Contents) :
    gather f g (b.insert d v) = (if f d then (g v.2 : Multiset α) else 0) + gather f g (b.erase d) := by
  simp [gather, gathered, AList.insert, AList.erase, List.kinsert]

theorem gather_addToBucket (hg : ∀ x y, g (x.append y) = g x ++ g y) (f : ℚ → Bool)
    (p : ℚ × UPTiming × Contents) :
    gather f g (addToBucket b p) = gather f g b + if f p.1 then (g p.2.2 : Multiset α) else 0 := by
  cases hl : b.lookup p.1 with
  | none =>
    have he : (b.erase p.1).entries = b.entries :=
      List.kerase_of_notMem_keys (AList.lookup_eq_none.mp hl)
    simp only [addToBucket, hl, gather_insert]
    rw [add_comm]
    simp only [gather, he]
  | some v =>
    have hm : ⟨p.1, v⟩ ∈ b.entries := AList.mem_lookup_iff.mp hl
    obtain ⟨w, l₁, l₂, -, he, hk⟩ := List.exists_of_kerase
      (List.mem_keys.mpr ⟨v, hm⟩ : p.1 ∈ b.entries.keys)
    obtain rfl : w = v := by
      have hw : ⟨p.1, w⟩ ∈ b.entries := by simp [he]
      exact Option.some.inj ((AList.mem_lookup_iff.mpr hw).symm.trans hl)
    have hk' : (b.erase p.1).entries = l₁ ++ l₂ := hk
    simp only [addToBucket, hl, gather_insert, hg]
    simp only [gather, gathered, he, hk', List.map_append, List.map_cons, List.sum_append,
      List.sum_cons, ← Multiset.coe_add]
    split_ifs
    · abel
    · abel

theorem gather_foldl (hg : ∀ x y, g (x.append y) = g x ++ g y) (f : ℚ → Bool)
    (l : List (ℚ × UPTiming × Contents)) :
    gather f g (l.foldl addToBucket b) = gather f g b + gathered f g l := by
  induction l generalizing b with
  | nil => simp [gathered]
  | cons p l ih =>
    rw [List.foldl_cons, ih, gather_addToBucket hg, add_assoc]
    rfl

theorem gather_withStart (h : g {} = []) (f : ℚ → Bool) : gather f g b.withStart = gather f g b := by
  unfold withStart
  split_ifs with h0
  · rfl
  · have he : (b.erase 0).entries = b.entries := List.kerase_of_notMem_keys h0
    rw [gather_insert]
    simp [gather, he, h]

/-- The first `n` buckets are those with a delay in `f`. -/
theorem sum_take_sorted {n : ℕ} {f : ℚ → Bool}
    (h : ∀ i p, b.sorted[i]? = some p → (f p.1 = true ↔ i < n)) :
    ((b.sorted.take n).map fun p => (g p.2.2 : Multiset α)).sum = gather f g b := by
  have hperm : (b.entries.map fun p => (p.1, p.2)).Perm (b.sorted.map fun p => (p.1, p.2)) :=
    (List.perm_insertionSort _ _).symm.map _
  have hsplit : gather f g b = ((b.sorted.take n ++ b.sorted.drop n).map fun p =>
      if f p.1 then (g p.2.2 : Multiset α) else 0).sum := by
    rw [gather, gathered, (hperm.map _).sum_eq, List.take_append_drop]
    simp [Function.comp_def]
  have hbefore : ∀ p ∈ b.sorted.take n, f p.1 = true := by
    intro p hp
    obtain ⟨i, hi⟩ := List.mem_iff_getElem?.mp hp
    rw [List.getElem?_take] at hi
    split_ifs at hi with hin
    exact (h i p hi).mpr hin
  have hafter : ∀ p ∈ b.sorted.drop n, ¬ f p.1 = true := by
    intro p hp
    obtain ⟨i, hi⟩ := List.mem_iff_getElem?.mp hp
    rw [List.getElem?_drop] at hi
    intro hf
    have := (h _ p hi).mp hf
    omega
  have hzero : ((b.sorted.drop n).map fun p =>
      if f p.1 then (g p.2.2 : Multiset α) else 0).sum = 0 :=
    List.sum_eq_zero fun x hx => by
      obtain ⟨p, hp, rfl⟩ := List.mem_map.mp hx
      exact if_neg (hafter p hp)
  rw [hsplit, List.map_append, List.sum_append, hzero, add_zero]
  exact congrArg List.sum (List.map_congr_left fun p hp => (if_pos (hbefore p hp)).symm)

/-- The buckets before position `k`, and those up to it, by their delays. -/
theorem sorted_lt_iff {k i : ℕ} {p q : Sigma fun _ : ℚ => UPTiming × Contents}
    (hk : b.sorted[k]? = some q) (hi : b.sorted[i]? = some p) : p.1 < q.1 ↔ i < k := by
  rcases lt_trichotomy i k with h | rfl | h
  · exact ⟨fun _ => h, fun _ => sorted_lt h hi hk⟩
  · obtain rfl := Option.some.inj (hk.symm.trans hi)
    simp
  · exact ⟨fun hpq => absurd hpq (sorted_lt h hk hi).not_gt, fun hik => by omega⟩

theorem sum_before_sorted {k : ℕ} {q : Sigma fun _ : ℚ => UPTiming × Contents}
    (hk : b.sorted[k]? = some q) :
    ((b.sorted.take k).map fun p => (g p.2.2 : Multiset α)).sum = gather (· < q.1) g b :=
  sum_take_sorted fun i p hi => by simpa using sorted_lt_iff hk hi

theorem sum_upto_sorted {k : ℕ} {q : Sigma fun _ : ℚ => UPTiming × Contents}
    (hk : b.sorted[k]? = some q) :
    ((b.sorted.take (k + 1)).map fun p => (g p.2.2 : Multiset α)).sum = gather (· ≤ q.1) g b :=
  sum_take_sorted fun i p hi => by
    have := sorted_lt_iff hi hk
    rw [decide_eq_true_eq, ← not_lt, this]
    omega

theorem sum_sorted : (b.sorted.map fun p => (g p.2.2 : Multiset α)).sum =
    gather (fun _ => true) g b := by
  rw [← sum_take_sorted (n := b.sorted.length), List.take_length]
  intro i p hi
  simpa using (List.getElem?_eq_some_iff.mp hi).1

end Buckets

/-- The duration by which entries from the end are moved to the start's side. -/
def DurativeAction.foldedBy (conj : List FNode → FNode) (a : DurativeAction) : Option ℚ :=
  if a.hasIceFromStart conj && a.hasIceFromEnd conj then a.constantDuration else none

/-- The entries from the end are folded into those from the start or laid out
after them; nothing lies before the start. -/
theorem DurativeAction.orderedBuckets_cases {conj : List FNode → FNode} {a : DurativeAction}
    {bs : List (UPTiming × Contents)}
    (h : a.orderedBuckets conj = some bs) : ∃ start stop : Buckets,
      (a.foldedBy conj = none ∧ start = a.fromStart conj ∧ stop = a.fromEnd conj ∨
        ∃ q, a.foldedBy conj = some q ∧
          start = (foldedEnd q (a.fromEnd conj)).foldl addToBucket (a.fromStart conj) ∧ stop = ∅) ∧
      (∀ d v, start.lookup d = some v → 0 ≤ d) ∧
      bs = sortBuckets start.withStart ++ sortBuckets stop := by
  have hsplit : ∀ {start stop : Buckets},
      (if start.entries.any (fun p => p.1 < 0) then none
        else some (sortBuckets start.withStart ++ sortBuckets stop)) = some bs →
      (∀ d v, start.lookup d = some v → 0 ≤ d) ∧
        bs = sortBuckets start.withStart ++ sortBuckets stop := by
    intro start stop h
    by_cases hneg : start.entries.any (fun p => p.1 < 0) = true
    · rw [if_pos hneg] at h
      contradiction
    · rw [if_neg hneg] at h
      refine ⟨fun d v hd => ?_, (Option.some.inj h).symm⟩
      by_contra hlt
      exact hneg (List.any_eq_true.mpr ⟨⟨d, v⟩, AList.mem_lookup_iff.mp hd, by simpa using hlt⟩)
  rw [orderedBuckets, Option.bind_eq_bind] at h
  split_ifs at h with hice
  · obtain ⟨p, hp, h⟩ := Option.bind_eq_some_iff.mp h
    obtain ⟨q, hq, rfl⟩ := Option.map_eq_some_iff.mp hp
    obtain ⟨hnn, hbs⟩ := hsplit h
    exact ⟨_, _, .inr ⟨q, by rw [foldedBy, if_pos hice, hq], rfl, rfl⟩, hnn, hbs⟩
  · obtain ⟨hnn, hbs⟩ := hsplit h
    exact ⟨_, _, .inl ⟨by rw [foldedBy, if_neg hice], rfl, rfl⟩, hnn, hbs⟩

end TamerLite
