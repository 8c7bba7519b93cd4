import Mathlib.Data.List.Basic
import Mathlib.Data.List.Forall2
import Mathlib.Data.List.Nodup

/-! Growing lists whose entries are told apart by a key, and the combinations of
their entries: those of the full lists are those of the prefixes visited before and
the new ones. -/

namespace Enumeration

section Keys

variable {α κ : Type*} [DecidableEq κ] (key : α → κ)

/-- Appends an entry whose key is new. -/
def add (s : List α) (v : α) : List α := if key v ∈ s.map key then s else s ++ [v]

def addAll (s vs : List α) : List α := vs.foldl (add key) s

/-- No two entries share a key. -/
def Unambiguous (vs : List α) : Prop := ∀ v ∈ vs, ∀ w ∈ vs, key v = key w → v = w

/-- The same entries, but for those whose keys are those of `base`. -/
def SameNew (base s t : List α) : Prop := ∀ v, key v ∉ base.map key → (v ∈ s ↔ v ∈ t)

variable {key} {base base' s t vs ws : List α} {v : α}

theorem prefix_add : s <+: add key s v := by
  rw [add]
  split_ifs
  · exact List.prefix_rfl
  · exact List.prefix_append s [v]

theorem prefix_addAll : s <+: addAll key s vs := by
  induction vs generalizing s with
  | nil => exact List.prefix_rfl
  | cons w vs ih => exact prefix_add.trans ih

theorem nodup_add (h : (s.map key).Nodup) : ((add key s v).map key).Nodup := by
  rw [add]
  split_ifs with hv
  · exact h
  · rw [List.map_append, List.map_singleton, List.nodup_append]
    refine ⟨h, List.nodup_singleton _, fun k hk l hl => ?_⟩
    rintro rfl
    exact hv (List.mem_singleton.mp hl ▸ hk)

theorem nodup_addAll (h : (s.map key).Nodup) : ((addAll key s vs).map key).Nodup := by
  induction vs generalizing s with
  | nil => exact h
  | cons w vs ih => exact ih (nodup_add h)

omit [DecidableEq κ] in
theorem unambiguous_of_nodup (h : (s.map key).Nodup) : Unambiguous key s :=
  fun _ hv _ hw hk => List.inj_on_of_nodup_map h hv hw hk

theorem key_mem_add {k : κ} : k ∈ (add key s v).map key ↔ k ∈ s.map key ∨ k = key v := by
  rw [add]
  split_ifs with hv
  · constructor
    · exact .inl
    · rintro (h | rfl)
      · exact h
      · exact hv
  · simp only [List.map_append, List.map_singleton, List.mem_append, List.mem_singleton]

theorem key_mem_addAll {k : κ} :
    k ∈ (addAll key s vs).map key ↔ k ∈ s.map key ∨ k ∈ vs.map key := by
  induction vs generalizing s with
  | nil => simp [addAll]
  | cons w vs ih =>
    rw [show addAll key s (w :: vs) = addAll key (add key s w) vs from rfl, ih, key_mem_add,
      List.map_cons, List.mem_cons, or_assoc]

theorem mem_addAll (h : Unambiguous key vs) :
    v ∈ addAll key s vs ↔ v ∈ s ∨ v ∈ vs ∧ key v ∉ s.map key := by
  induction vs generalizing s with
  | nil => simp [addAll]
  | cons w vs ih =>
    have hvs : Unambiguous key vs :=
      fun x hx y hy => h x (List.mem_cons_of_mem w hx) y (List.mem_cons_of_mem w hy)
    rw [show addAll key s (w :: vs) = addAll key (add key s w) vs from rfl, ih hvs, key_mem_add]
    by_cases hw : key w ∈ s.map key
    · rw [show add key s w = s from if_pos hw, List.mem_cons]
      constructor
      · rintro (hv | ⟨hv, hn⟩)
        · exact .inl hv
        · exact .inr ⟨.inr hv, fun hs => hn (.inl hs)⟩
      · rintro (hv | ⟨rfl | hv, hn⟩)
        · exact .inl hv
        · exact absurd hw hn
        · refine .inr ⟨hv, ?_⟩
          rintro (hs | he)
          · exact hn hs
          · exact hn (he ▸ hw)
    · rw [show add key s w = s ++ [w] from if_neg hw, List.mem_append, List.mem_singleton,
        List.mem_cons]
      constructor
      · rintro ((hv | rfl) | ⟨hv, hn⟩)
        · exact .inl hv
        · exact .inr ⟨.inl rfl, hw⟩
        · exact .inr ⟨.inr hv, fun hs => hn (.inl hs)⟩
      · rintro (hv | ⟨rfl | hv, hn⟩)
        · exact .inl (.inl hv)
        · exact .inl (.inr rfl)
        · by_cases he : key v = key w
          · exact .inl (.inr (h v (List.mem_cons_of_mem w hv) w List.mem_cons_self he))
          · refine .inr ⟨hv, ?_⟩
            rintro (hs | he')
            · exact hn hs
            · exact he he'

omit [DecidableEq κ] in
theorem SameNew.keys (h : SameNew key base s t) {k : κ} (hk : k ∉ base.map key) :
    k ∈ s.map key ↔ k ∈ t.map key := by
  simp only [List.mem_map]
  constructor
  · rintro ⟨u, hu, rfl⟩
    exact ⟨u, (h u hk).mp hu, rfl⟩
  · rintro ⟨u, hu, rfl⟩
    exact ⟨u, (h u hk).mpr hu, rfl⟩

theorem SameNew.addAll (h : SameNew key base s t) (hvs : Unambiguous key vs)
    (hws : Unambiguous key ws) (hnew : SameNew key base vs ws) :
    SameNew key base (addAll key s vs) (addAll key t ws) := by
  intro v hv
  rw [mem_addAll hvs, mem_addAll hws, h v hv, hnew v hv, h.keys hv]

/-- Two lists with the same entries have the same entries after the same new
ones are added. -/
theorem mem_addAll_congr (hbase : ∀ v, v ∈ base ↔ v ∈ base') (hs : Unambiguous key s)
    (ht : Unambiguous key t) (h : SameNew key base s t) :
    v ∈ Enumeration.addAll key base s ↔ v ∈ Enumeration.addAll key base' t := by
  have hkeys : key v ∈ base.map key ↔ key v ∈ base'.map key := by
    simp only [List.mem_map, hbase]
  rw [mem_addAll hs, mem_addAll ht, hbase v, hkeys]
  refine or_congr_right (and_congr_left fun hv => h v ?_)
  exact fun hk => hv (hkeys.mp hk)

end Keys

theorem mapM_eq_some {α β : Type*} {f : α → Option β} {l : List α} {vs : List β}
    (h : l.mapM f = some vs) :
    (∀ a ∈ l, ∃ v ∈ vs, f a = some v) ∧ ∀ v ∈ vs, ∃ a ∈ l, f a = some v := by
  induction l generalizing vs with
  | nil => simp_all
  | cons a l ih =>
    simp only [List.mapM_cons, Option.bind_eq_bind, Option.bind_eq_some_iff, Option.pure_def,
      Option.some.injEq] at h
    obtain ⟨v, hv, us, hus, rfl⟩ := h
    obtain ⟨hl, hr⟩ := ih hus
    simp only [List.mem_cons, forall_eq_or_imp, exists_eq_or_imp]
    exact ⟨⟨.inl hv, fun b hb => .inr (hl b hb)⟩, .inl hv, fun w hw => .inr (hr w hw)⟩

theorem exists_mapM {α β : Type*} {f : α → Option β} {l : List α}
    (h : ∀ a ∈ l, ∃ v, f a = some v) : ∃ vs, l.mapM f = some vs := by
  induction l with
  | nil => exact ⟨[], rfl⟩
  | cons a l ih =>
    obtain ⟨v, hv⟩ := h a List.mem_cons_self
    obtain ⟨vs, hvs⟩ := ih fun b hb => h b (List.mem_cons_of_mem a hb)
    exact ⟨v :: vs, by simp [List.mapM_cons, hv, hvs]⟩

section Products

variable {α : Type*}

/-- `itertools.product`. -/
def product : List (List α) → List (List α)
  | [] => [[]]
  | l :: ls => l.flatMap fun a => (product ls).map (a :: ·)

/-- What position `j` enumerates: the visited prefixes before it, the new entries
at it, and everything after it. -/
def ranges (values : List (List α)) (oldSizes : List ℕ) (j : ℕ) : List (List α) :=
  (values.zip oldSizes).mapIdx fun i p =>
    if i < j then p.1.take p.2 else if i = j then p.1.drop p.2 else p.1

def newCombinations (values : List (List α)) (oldSizes : List ℕ) : List (List α) :=
  (List.range values.length).flatMap fun j => product (ranges values oldSizes j)

/-- The combinations of the visited prefixes. -/
def oldCombinations (values : List (List α)) (oldSizes : List ℕ) : List (List α) :=
  product (List.zipWith (fun l n => l.take n) values oldSizes)

variable {values : List (List α)} {oldSizes : List ℕ} {c : List α}

theorem mem_product : c ∈ product values ↔ List.Forall₂ (· ∈ ·) c values := by
  induction values generalizing c with
  | nil => simp [product]
  | cons l ls ih =>
    simp only [product, List.mem_flatMap, List.mem_map, ih]
    constructor
    · rintro ⟨a, ha, c, hc, rfl⟩
      exact .cons ha hc
    · rintro (_ | ⟨ha, hc⟩)
      exact ⟨_, ha, _, hc, rfl⟩

theorem mem_product_mono {values' : List (List α)} (h : List.Forall₂ (· ⊆ ·) values values')
    (hc : c ∈ product values) : c ∈ product values' := by
  rw [mem_product] at hc ⊢
  induction hc generalizing values' with
  | nil => cases h; exact .nil
  | cons ha _ ih =>
    cases h with
    | cons hl hls => exact .cons (hl ha) (ih hls)

theorem ranges_zero {l : List α} {n : ℕ} (h : values.length = oldSizes.length) :
    ranges (l :: values) (n :: oldSizes) 0 = l.drop n :: values := by
  have hfst : (values.zip oldSizes).mapIdx (fun _ p => p.1) = values := by
    conv_rhs => rw [← List.map_fst_zip (Nat.le_of_eq h)]
    exact List.ext_getElem? fun i => by rw [List.getElem?_mapIdx, List.getElem?_map]
  simp [ranges, hfst]

theorem ranges_succ {l : List α} {n j : ℕ} :
    ranges (l :: values) (n :: oldSizes) (j + 1) = l.take n :: ranges values oldSizes j := by
  simp [ranges]

theorem ranges_sublist (h : values.length = oldSizes.length) {j : ℕ} :
    List.Forall₂ (· ⊆ ·) (ranges values oldSizes j) values := by
  induction values generalizing oldSizes j with
  | nil => simp [ranges]
  | cons l values ih =>
    cases oldSizes with
    | nil => simp at h
    | cons n oldSizes =>
      have hlen : values.length = oldSizes.length := by simpa using h
      cases j with
      | zero =>
        rw [ranges_zero hlen]
        exact .cons (List.drop_subset n l) (List.forall₂_same.mpr fun _ _ => List.Subset.refl _)
      | succ j =>
        rw [ranges_succ]
        exact .cons (List.take_subset n l) (ih hlen)

/-- Nothing but combinations of the entries is enumerated. -/
theorem mem_product_of_new (h : values.length = oldSizes.length)
    (hc : c ∈ newCombinations values oldSizes) : c ∈ product values := by
  obtain ⟨j, -, hj⟩ := List.mem_flatMap.mp hc
  exact mem_product_mono (ranges_sublist h) hj

/-- A combination that does not consist of visited entries is enumerated. -/
theorem mem_old_or_new (h : values.length = oldSizes.length) (hc : c ∈ product values) :
    c ∈ oldCombinations values oldSizes ∨ c ∈ newCombinations values oldSizes := by
  induction values generalizing oldSizes c with
  | nil => exact .inl (by simpa [oldCombinations] using hc)
  | cons l values ih =>
    cases oldSizes with
    | nil => simp at h
    | cons n oldSizes =>
      have hlen : values.length = oldSizes.length := by simpa using h
      cases mem_product.mp hc with
      | @cons a _ c _ ha hcs =>
        have hsplit : a ∈ l.take n ∨ a ∈ l.drop n := by
          rw [← List.mem_append, List.take_append_drop]
          exact ha
        rcases hsplit with ht | hd
        · rcases ih hlen (mem_product.mpr hcs) with hold | hnew
          · refine .inl (mem_product.mpr (.cons ht ?_))
            exact mem_product.mp hold
          · obtain ⟨j, hj, hmem⟩ := List.mem_flatMap.mp hnew
            have hj' : j + 1 < (l :: values).length := by simpa using hj
            refine .inr (List.mem_flatMap.mpr ⟨j + 1, List.mem_range.mpr hj', ?_⟩)
            rw [ranges_succ]
            exact mem_product.mpr (.cons ht (mem_product.mp hmem))
        · refine .inr (List.mem_flatMap.mpr ⟨0, by simp, ?_⟩)
          rw [ranges_zero hlen]
          exact mem_product.mpr (.cons hd hcs)

/-- After the enumeration everything counts as visited. -/
theorem oldCombinations_length : oldCombinations values (values.map List.length) = product values := by
  have h : List.zipWith (fun l n => l.take n) values (values.map List.length) = values := by
    induction values with
    | nil => rfl
    | cons l values ih => simp [ih]
  rw [oldCombinations, h]

/-- The visited prefixes stay what they are when the lists grow. -/
theorem oldCombinations_of_prefix {values' : List (List α)}
    (hsizes : List.Forall₂ (fun l n => n ≤ l.length) values oldSizes)
    (hpre : List.Forall₂ (· <+: ·) values values') :
    oldCombinations values' oldSizes = oldCombinations values oldSizes := by
  have h : List.zipWith (fun l n => l.take n) values' oldSizes =
      List.zipWith (fun l n => l.take n) values oldSizes := by
    induction hsizes generalizing values' with
    | nil => cases hpre; rfl
    | cons hn _ ih =>
      cases hpre with
      | cons hl hpre =>
        obtain ⟨t, rfl⟩ := hl
        rw [List.zipWith_cons_cons, List.zipWith_cons_cons, ih hpre, List.take_append_of_le_length hn]
  rw [oldCombinations, oldCombinations, h]

theorem mem_product_of_old (h : values.length = oldSizes.length)
    (hc : c ∈ oldCombinations values oldSizes) : c ∈ product values := by
  induction values generalizing oldSizes c with
  | nil => simpa [oldCombinations] using hc
  | cons l values ih =>
    cases oldSizes with
    | nil => simp at h
    | cons n oldSizes =>
      have hlen : values.length = oldSizes.length := by simpa using h
      cases mem_product.mp hc with
      | @cons a _ c _ ha hcs =>
        exact mem_product.mpr (.cons (List.mem_of_mem_take ha)
          (mem_product.mp (ih hlen (mem_product.mpr hcs))))

end Products

end Enumeration
