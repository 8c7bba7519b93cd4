import Mathlib.Algebra.BigOperators.Group.List.Basic
import Mathlib.Algebra.BigOperators.Ring.List
import Mathlib.Data.List.Nodup
import Mathlib.Tactic.Ring

/-! Dictionaries that keep the order of insertion, the index of a list by the keys of its
elements, and linear combinations given by one: the sum of its values, each weighted by its
key. -/

structure Dict (α β : Type*) where
  entries : List (α × β)
  nodup : (entries.map Prod.fst).Nodup

namespace Dict

variable {α β : Type*}

def empty : Dict α β := ⟨[], List.nodup_nil⟩

def singleton (k : α) (v : β) : Dict α β := ⟨[(k, v)], List.nodup_singleton k⟩

def filter (d : Dict α β) (p : α → β → Bool) : Dict α β where
  entries := d.entries.filter fun e => p e.1 e.2
  nodup := d.nodup.sublist (List.filter_sublist.map Prod.fst)

def mapValues (f : β → β) (d : Dict α β) : Dict α β where
  entries := d.entries.map fun e => (e.1, f e.2)
  nodup := by
    rw [List.map_map]
    exact d.nodup

variable [DecidableEq α]

def get? (d : Dict α β) (k : α) : Option β := (d.entries.find? fun p => p.1 = k).map Prod.snd

/-- `d[k] = f(d.get(k, default))` on the entries. -/
def modifyEntries (k : α) (f : β → β) (default : β) : List (α × β) → List (α × β)
  | [] => [(k, f default)]
  | p :: l => if p.1 = k then (k, f p.2) :: l else p :: modifyEntries k f default l

theorem keys_modifyEntries (k : α) (f : β → β) (default : β) (l : List (α × β)) :
    (modifyEntries k f default l).map Prod.fst =
      if k ∈ l.map Prod.fst then l.map Prod.fst else l.map Prod.fst ++ [k] := by
  induction l with
  | nil => rfl
  | cons p l ih =>
    by_cases hp : p.1 = k
    · simp [modifyEntries, hp]
    · have hk : ¬k = p.1 := fun h => hp h.symm
      simp only [modifyEntries, if_neg hp, List.map_cons, ih, List.mem_cons, hk, false_or]
      split_ifs <;> rfl

def modify (d : Dict α β) (k : α) (f : β → β) (default : β) : Dict α β where
  entries := modifyEntries k f default d.entries
  nodup := by
    rw [keys_modifyEntries]
    split_ifs with h
    · exact d.nodup
    · exact List.nodup_append.mpr ⟨d.nodup, List.nodup_singleton k, fun a ha b hb hab => by
        rw [List.mem_singleton.mp hb] at hab
        exact h (hab ▸ ha)⟩

def erase (d : Dict α β) (k : α) : Dict α β := d.filter fun j _ => j ≠ k

theorem get?_eq_some_iff {d : Dict α β} {k : α} {v : β} : d.get? k = some v ↔ (k, v) ∈ d.entries := by
  obtain ⟨l, hl⟩ := d
  show (l.find? fun p => p.1 = k).map Prod.snd = some v ↔ (k, v) ∈ l
  induction l with
  | nil => simp
  | cons p l ih =>
    rw [List.map_cons, List.nodup_cons] at hl
    by_cases hp : p.1 = k
    · rw [List.find?_cons_of_pos (by simpa using hp), Option.map_some, Option.some.injEq,
        List.mem_cons]
      refine ⟨fun h => .inl (Prod.ext hp.symm h.symm), fun h => ?_⟩
      rcases h with rfl | h
      · rfl
      · exact absurd (List.mem_map.mpr ⟨_, h, hp.symm⟩) hl.1
    · rw [List.find?_cons_of_neg (by simpa using hp), ih hl.2, List.mem_cons]
      refine ⟨.inr, fun h => ?_⟩
      rcases h with rfl | h
      · exact absurd rfl hp
      · exact h

theorem find?_modifyEntries (k : α) (f : β → β) (default : β) (l : List (α × β)) (j : α) :
    ((modifyEntries k f default l).find? fun p => p.1 = j).map Prod.snd =
      if j = k then some (f (((l.find? fun p => p.1 = k).map Prod.snd).getD default))
      else (l.find? fun p => p.1 = j).map Prod.snd := by
  induction l with
  | nil => by_cases hj : j = k <;> simp [modifyEntries, hj, Ne.symm]
  | cons p l ih =>
    by_cases hp : p.1 = k
    · by_cases hj : j = k
      · simp [modifyEntries, hp, hj]
      · have hkj : ¬k = j := fun h => hj h.symm
        simp [modifyEntries, hp, hj, hkj]
    · by_cases hpj : p.1 = j
      · have hj : ¬j = k := fun h => hp (hpj.trans h)
        simp [modifyEntries, hpj, hj]
      · rw [modifyEntries, if_neg hp, List.find?_cons_of_neg (by simpa using hpj), ih,
          List.find?_cons_of_neg (by simpa using hp), List.find?_cons_of_neg (by simpa using hpj)]

theorem get?_modify (d : Dict α β) (k : α) (f : β → β) (default : β) (j : α) :
    (d.modify k f default).get? j = if j = k then some (f ((d.get? k).getD default)) else d.get? j :=
  find?_modifyEntries k f default d.entries j

/-! ### Indexing a list -/

section Index

variable (keys : β → List α)

/-- `for k in keys(x): d.setdefault(k, []).append(x)`. -/
def indexOne (d : Dict α (List β)) (x : β) : Dict α (List β) :=
  (keys x).foldl (fun d k => d.modify k (· ++ [x]) []) d

/-- Each key, with the elements of the list that have it. -/
def index (l : List β) : Dict α (List β) := l.foldl (indexOne keys) empty

theorem get?_indexOne {x : β} (hn : (keys x).Nodup) (d : Dict α (List β)) (k : α) :
    (indexOne keys d x).get? k =
      if k ∈ keys x then some ((d.get? k).getD [] ++ [x]) else d.get? k := by
  rw [indexOne]
  generalize keys x = js at hn
  induction js generalizing d with
  | nil => simp
  | cons j js ih =>
    obtain ⟨hj, hn⟩ := List.nodup_cons.mp hn
    rw [List.foldl_cons, ih _ hn, get?_modify]
    by_cases hkj : k = j
    · subst hkj
      simp [hj]
    · simp [hkj]

theorem get?_foldl_indexOne (hn : ∀ x, (keys x).Nodup) (l : List β) (d : Dict α (List β)) (k : α) :
    (l.foldl (indexOne keys) d).get? k =
      if ∃ x ∈ l, k ∈ keys x then some ((d.get? k).getD [] ++ l.filter (k ∈ keys ·)) else d.get? k := by
  induction l generalizing d with
  | nil => simp
  | cons x l ih =>
    rw [List.foldl_cons, ih, get?_indexOne keys (hn x)]
    by_cases hx : k ∈ keys x
    · by_cases hl : ∃ y ∈ l, k ∈ keys y
      · simp [hx, hl]
      · have hnil : l.filter (k ∈ keys ·) = [] := by
          rw [List.filter_eq_nil_iff]
          intro y hy hk
          exact hl ⟨y, hy, by simpa using hk⟩
        simp [hx, hl, hnil]
    · simp [hx]

theorem get?_index (hn : ∀ x, (keys x).Nodup) (l : List β) (k : α) :
    (index keys l).get? k =
      if ∃ x ∈ l, k ∈ keys x then some (l.filter (k ∈ keys ·)) else none := by
  rw [index, get?_foldl_indexOne keys hn]
  rfl

theorem getD_index (hn : ∀ x, (keys x).Nodup) (l : List β) (k : α) :
    ((index keys l).get? k).getD [] = l.filter (k ∈ keys ·) := by
  rw [get?_index keys hn]
  split_ifs with h
  · rfl
  · refine (List.filter_eq_nil_iff.mpr fun x hx hk => h ⟨x, hx, ?_⟩).symm
    simpa using hk

end Index

/-- Every element is filed under its key, once. -/
theorem values_index_perm (key : β → α) (l : List β) :
    ((index (fun x => [key x]) l).entries.flatMap Prod.snd).Perm l := by
  have hone : ∀ (k : α) (x : β) (entries : List (α × List β)),
      ((modifyEntries k (· ++ [x]) [] entries).flatMap Prod.snd).Perm
        (entries.flatMap Prod.snd ++ [x]) := by
    intro k x entries
    induction entries with
    | nil => exact .refl _
    | cons p entries ih =>
      rw [modifyEntries]
      split_ifs
      · simp only [List.flatMap_cons, List.append_assoc]
        exact List.perm_append_comm.append_left p.2
      · simp only [List.flatMap_cons, List.append_assoc]
        exact ih.append_left p.2
  have hall : ∀ (l : List β) (d : Dict α (List β)),
      ((l.foldl (indexOne fun x => [key x]) d).entries.flatMap Prod.snd).Perm
        (d.entries.flatMap Prod.snd ++ l) := by
    intro l
    induction l with
    | nil =>
      intro d
      rw [List.append_nil]
      exact .refl _
    | cons x l ih =>
      intro d
      have hx := (hone (key x) x d.entries).append_right l
      rw [List.append_assoc, List.singleton_append] at hx
      exact (ih _).trans hx
  exact hall l empty

/-! ### Linear combinations -/

section Sum

variable {R : Type*} [CommRing R] (x : α → R)

/-- The sum of the values, each times the value of its key. -/
def linearSum (d : Dict α R) : R := (d.entries.map fun p => p.2 * x p.1).sum

omit [DecidableEq α] in
@[simp] theorem linearSum_singleton (k : α) (v : R) : (singleton k v).linearSum x = v * x k := by
  simp [singleton, linearSum]

theorem linearSum_modify (d : Dict α R) (k : α) (f : R → R) (w : R) (h : ∀ v, f v = v + w) :
    (d.modify k f 0).linearSum x = d.linearSum x + w * x k := by
  show ((modifyEntries k f 0 d.entries).map _).sum = (d.entries.map _).sum + _
  induction d.entries with
  | nil => simp [modifyEntries, h]
  | cons p l ih =>
    by_cases hp : p.1 = k
    · rw [modifyEntries, if_pos hp, List.map_cons, List.map_cons, List.sum_cons, List.sum_cons, h, hp]
      ring
    · simp only [modifyEntries, if_neg hp, List.map_cons, List.sum_cons, ih, add_assoc]

/-- Merging one combination into another adds it, each value with its factor. -/
theorem linearSum_merge (c : R) (f : R → R → R) (h : ∀ w v, f w v = v + c * w)
    (l : List (α × R)) (d : Dict α R) :
    (l.foldl (fun d p => d.modify p.1 (f p.2) 0) d).linearSum x =
      d.linearSum x + c * (l.map fun p => p.2 * x p.1).sum := by
  induction l generalizing d with
  | nil => simp
  | cons p l ih =>
    rw [List.foldl_cons, ih, linearSum_modify x d p.1 (f p.2) (c * p.2) (h p.2), List.map_cons,
      List.sum_cons]
    ring

omit [DecidableEq α] in
theorem linearSum_filter (d : Dict α R) (p : α → R → Bool) (h : ∀ k v, p k v = false → v = 0) :
    (d.filter p).linearSum x = d.linearSum x := by
  show ((d.entries.filter fun e => p e.1 e.2).map _).sum = (d.entries.map _).sum
  induction d.entries with
  | nil => rfl
  | cons e l ih =>
    rw [List.map_cons, List.sum_cons, List.filter_cons]
    split_ifs with hp
    · rw [List.map_cons, List.sum_cons, ih]
    · rw [ih, h e.1 e.2 (by simpa using hp), zero_mul, zero_add]

omit [DecidableEq α] in
theorem linearSum_mapValues (d : Dict α R) (c : R) (f : R → R) (h : ∀ v, f v = v * c) :
    (d.mapValues f).linearSum x = d.linearSum x * c := by
  show ((d.entries.map fun e => (e.1, f e.2)).map _).sum = (d.entries.map _).sum * c
  induction d.entries with
  | nil => simp
  | cons e l ih =>
    rw [List.map_cons, List.map_cons, List.map_cons, List.sum_cons, List.sum_cons, ih, h]
    ring

/-- A key taken out gives its part of the sum. -/
theorem linearSum_erase (d : Dict α R) (k : α) :
    d.linearSum x = (d.erase k).linearSum x + (d.get? k).getD 0 * x k := by
  obtain ⟨l, hl⟩ := d
  show (l.map _).sum = ((l.filter fun e => e.1 ≠ k).map _).sum +
    ((l.find? fun p => p.1 = k).map Prod.snd).getD 0 * x k
  induction l with
  | nil => simp
  | cons e l ih =>
    rw [List.map_cons, List.nodup_cons] at hl
    by_cases he : e.1 = k
    · have hrest : l.filter (fun e => decide (e.1 ≠ k)) = l := by
        rw [List.filter_eq_self]
        intro e' he'
        simp only [ne_eq, decide_not, Bool.not_eq_eq_eq_not, Bool.not_true, decide_eq_false_iff_not]
        exact fun heq => hl.1 (List.mem_map.mpr ⟨e', he', heq.trans he.symm⟩)
      rw [List.find?_cons_of_pos (by simpa using he), List.filter_cons_of_neg (by simpa using he),
        hrest, List.map_cons, List.sum_cons, he, add_comm]
      rfl
    · rw [List.find?_cons_of_neg (by simpa using he), List.filter_cons_of_pos (by simpa using he),
        List.map_cons, List.map_cons, List.sum_cons, List.sum_cons, ih hl.2, add_assoc]

end Sum

end Dict
