import TamerLite.Dict

/-! Sorting the elements of a list into classes. Each is compared with one representative of
every class whose signature it shares; some are kept alone. -/

namespace Representatives

/-- The classes, and the positions of those with a given signature. -/
structure State (α σ : Type*) where
  groups : List (List α)
  buckets : Dict σ (List ℕ)

section Sorting

variable {α σ : Type*} [DecidableEq σ]

namespace State

def candidates (s : State α σ) (k : σ) : List ℕ := (s.buckets.get? k).getD []

def representative (s : State α σ) (i : ℕ) : Option α := s.groups[i]?.bind List.head?

def isolate (s : State α σ) (a : α) : State α σ := { s with groups := s.groups ++ [[a]] }

def join (s : State α σ) (i : ℕ) (a : α) : State α σ :=
  { s with groups := s.groups.modify i (· ++ [a]) }

def openGroup (s : State α σ) (k : σ) (a : α) : State α σ where
  groups := s.groups ++ [[a]]
  buckets := s.buckets.modify k (· ++ [s.groups.length]) []

end State

variable (isolated : α → Bool) (signature : α → σ) (equivalent : α → α → Option Bool)

/-- The comparison may fail. -/
def place (s : State α σ) (a : α) : Option (State α σ) :=
  ((s.candidates (signature a)).findM? fun i => (s.representative i).bind (equivalent · a)).map fun
    | some i => s.join i a
    | none => s.openGroup (signature a) a

def visit (s : State α σ) (a : α) : Option (State α σ) :=
  if isolated a then some (s.isolate a) else place signature equivalent s a

/-- Adds the classes of the elements of `l`. -/
def sort (groups : List (List α)) (l : List α) : Option (List (List α)) :=
  (l.foldlM (visit isolated signature equivalent) ⟨groups, Dict.empty⟩).map State.groups

/-- The comparison decides an equivalence that keeps signatures. -/
structure Decides (D : α → Prop) (R : α → α → Prop) : Prop where
  equivalence : Equivalence R
  signature_eq : ∀ {x y}, D x → D y → R x y → signature x = signature y
  equivalent_eq : ∀ {x y}, D x → D y → ∃ b, equivalent x y = some b ∧ (b = true ↔ R x y)

def Related (R : α → α → Prop) (groups : List (List α)) : Prop :=
  ∀ g ∈ groups, ∀ x ∈ g, ∀ y ∈ g, R x y

/-- No class is split. -/
def Extends (groups groups' : List (List α)) : Prop := ∀ g ∈ groups, ∃ g' ∈ groups', g ⊆ g'

/-- `x` is in the candidate of signature `k` at position `i`. -/
def State.HasAt (s : State α σ) (k : σ) (i : ℕ) (x : α) : Prop :=
  i ∈ s.candidates k ∧ ∃ g, s.groups[i]? = some g ∧ x ∈ g

/-- Each element met is in a candidate, and different candidates are unrelated. -/
structure Invariant (R : α → α → Prop) (done : α → Prop) (s : State α σ) : Prop where
  related : Related R s.groups
  placed : ∀ x, done x → ∃ i, s.HasAt (signature x) i x
  represented : ∀ k, ∀ i ∈ s.candidates k, ∃ r, s.representative i = some r
  sound : ∀ {k i x}, s.HasAt k i x → done x ∧ signature x = k
  apart : ∀ {k l i j x y}, s.HasAt k i x → s.HasAt l j y → R x y → i = j

variable {isolated signature equivalent} {R : α → α → Prop} {D done : α → Prop} {s : State α σ} {a : α}

omit [DecidableEq σ] in
theorem Extends.refl (groups : List (List α)) : Extends groups groups :=
  fun g hg => ⟨g, hg, List.Subset.refl g⟩

omit [DecidableEq σ] in
theorem Extends.trans {groups₁ groups₂ groups₃ : List (List α)} (h : Extends groups₁ groups₂)
    (h' : Extends groups₂ groups₃) : Extends groups₁ groups₃ := by
  intro g hg
  obtain ⟨g', hg', hs⟩ := h g hg
  obtain ⟨g'', hg'', hs'⟩ := h' g' hg'
  exact ⟨g'', hg'', List.Subset.trans hs hs'⟩

theorem findM?_spec {ι : Type} {p : ι → Option Bool} {q : ι → Prop} {l : List ι}
    (h : ∀ i ∈ l, ∃ b, p i = some b ∧ (b = true ↔ q i)) :
    (∃ i ∈ l, q i ∧ l.findM? p = some (some i)) ∨ (∀ i ∈ l, ¬ q i) ∧ l.findM? p = some none := by
  induction l with
  | nil => exact .inr ⟨by simp, rfl⟩
  | cons i l ih =>
    obtain ⟨b, hb, hq⟩ := h i List.mem_cons_self
    cases b with
    | true => exact .inl ⟨i, List.mem_cons_self, hq.mp rfl, by simp [List.findM?, hb]⟩
    | false =>
      have hi : ¬ q i := fun hqi => Bool.false_ne_true (hq.mpr hqi)
      rcases ih fun j hj => h j (List.mem_cons_of_mem _ hj) with ⟨j, hj, hqj, hf⟩ | ⟨hn, hf⟩
      · exact .inl ⟨j, List.mem_cons_of_mem _ hj, hqj, by simp [List.findM?, hb, hf]⟩
      · exact .inr ⟨List.forall_mem_cons.mpr ⟨hi, hn⟩, by simp [List.findM?, hb, hf]⟩

theorem getElem?_modify_append (groups : List (List α)) (i j : ℕ) (a : α) :
    (groups.modify i (· ++ [a]))[j]? = if i = j then groups[j]?.map (· ++ [a]) else groups[j]? := by
  rw [List.getElem?_modify]
  split_ifs <;> simp

namespace State

omit [DecidableEq σ] in
theorem exists_of_representative {i : ℕ} {r : α} (h : s.representative i = some r) :
    ∃ g, s.groups[i]? = some (r :: g) := by
  obtain ⟨g, hg, hr⟩ := Option.bind_eq_some_iff.mp h
  cases g with
  | nil => simp at hr
  | cons x g =>
    obtain rfl := Option.some.inj hr
    exact ⟨g, hg⟩

omit [DecidableEq σ] in
theorem lt_of_representative {i : ℕ} {r : α} (h : s.representative i = some r) :
    i < s.groups.length := by
  obtain ⟨g, hg⟩ := exists_of_representative h
  exact (List.getElem?_eq_some_iff.mp hg).1

theorem candidates_openGroup (s : State α σ) (k : σ) (a : α) (l : σ) :
    (s.openGroup k a).candidates l =
      if l = k then s.candidates l ++ [s.groups.length] else s.candidates l := by
  rw [candidates, openGroup, Dict.get?_modify]
  split_ifs with h
  · rw [h]
    rfl
  · rfl

theorem hasAt_join {i : ℕ} (k : σ) (j : ℕ) (x : α) (hi : i < s.groups.length) :
    (s.join i a).HasAt k j x ↔ s.HasAt k j x ∨ j ∈ s.candidates k ∧ j = i ∧ x = a := by
  show (j ∈ s.candidates k ∧ ∃ g, (s.groups.modify i (· ++ [a]))[j]? = some g ∧ x ∈ g) ↔ _
  rw [getElem?_modify_append]
  by_cases hij : i = j
  · subst hij
    rw [if_pos rfl, List.getElem?_eq_getElem hi]
    simp only [HasAt, List.getElem?_eq_getElem hi, Option.map_some, Option.some.injEq,
      exists_eq_left', List.mem_append, List.mem_singleton, true_and, and_or_left]
  · have hji : j ≠ i := fun h => hij h.symm
    simp [HasAt, hij, hji]

omit [DecidableEq σ] in
theorem getElem?_append_singleton {g : List α} {j : ℕ} (hj : j < s.groups.length) :
    (s.groups ++ [g])[j]? = s.groups[j]? := List.getElem?_append_left hj

theorem hasAt_isolate (hb : ∀ k, ∀ i ∈ s.candidates k, i < s.groups.length) (k : σ) (j : ℕ) (x : α) :
    (s.isolate a).HasAt k j x ↔ s.HasAt k j x := by
  constructor
  · rintro ⟨hj, hg⟩
    refine ⟨hj, ?_⟩
    rwa [isolate, getElem?_append_singleton (hb k j hj)] at hg
  · rintro ⟨hj, hg⟩
    refine ⟨hj, ?_⟩
    rwa [isolate, getElem?_append_singleton (hb k j hj)]

theorem hasAt_openGroup (hb : ∀ k, ∀ i ∈ s.candidates k, i < s.groups.length) (k l : σ) (j : ℕ) (x : α) :
    (s.openGroup k a).HasAt l j x ↔ s.HasAt l j x ∨ l = k ∧ j = s.groups.length ∧ x = a := by
  rw [HasAt, candidates_openGroup]
  by_cases hj : j = s.groups.length
  · subst hj
    have hnot : ∀ l, s.groups.length ∉ s.candidates l := fun l h => lt_irrefl _ (hb l _ h)
    by_cases hl : l = k <;> simp [HasAt, openGroup, hl, hnot]
  · have hmem : (j ∈ if l = k then s.candidates l ++ [s.groups.length] else s.candidates l) ↔
        j ∈ s.candidates l := by split_ifs <;> simp [hj]
    simp only [hmem, hj, HasAt, false_and, and_false, or_false]
    refine and_congr_right fun hm => ?_
    rw [openGroup, getElem?_append_singleton (hb l j hm)]

end State

theorem extends_append (groups : List (List α)) (g : List α) : Extends groups (groups ++ [g]) :=
  fun h hh => ⟨h, List.mem_append_left _ hh, List.Subset.refl h⟩

theorem extends_modify (groups : List (List α)) (i : ℕ) (a : α) :
    Extends groups (groups.modify i (· ++ [a])) := by
  intro g hg
  obtain ⟨j, hj⟩ := List.mem_iff_getElem?.mp hg
  by_cases hij : i = j
  · exact ⟨g ++ [a], List.mem_iff_getElem?.mpr ⟨j, by simp [hij, hj]⟩,
      List.subset_append_left g [a]⟩
  · exact ⟨g, List.mem_iff_getElem?.mpr ⟨j, by simp [hij, hj]⟩,
      List.Subset.refl g⟩

theorem Related.append {groups : List (List α)} (h : Related R groups) (ha : R a a) :
    Related R (groups ++ [[a]]) := by
  intro g hg x hx y hy
  rcases List.mem_append.mp hg with hg | hg
  · exact h g hg x hx y hy
  · obtain rfl := List.mem_singleton.mp hg
    rw [List.mem_singleton.mp hx, List.mem_singleton.mp hy]
    exact ha

theorem Related.modify (hR : Equivalence R) {groups : List (List α)} (h : Related R groups) {i : ℕ}
    {g : List α} {r : α} (hg : groups[i]? = some (r :: g)) (hra : R r a) :
    Related R (groups.modify i (· ++ [a])) := by
  have hr : ∀ x ∈ r :: g ++ [a], R r x := by
    intro x hx
    rcases List.mem_append.mp hx with hx | hx
    · exact h _ (List.mem_iff_getElem?.mpr ⟨i, hg⟩) r List.mem_cons_self x hx
    · rwa [List.mem_singleton.mp hx]
  intro g' hg' x hx y hy
  obtain ⟨j, hj⟩ := List.mem_iff_getElem?.mp hg'
  rw [getElem?_modify_append] at hj
  by_cases hij : i = j
  · subst hij
    rw [if_pos rfl, hg] at hj
    obtain rfl := Option.some.inj hj
    exact hR.trans (hR.symm (hr x hx)) (hr y hy)
  · rw [if_neg hij] at hj
    exact h g' (List.mem_iff_getElem?.mpr ⟨j, hj⟩) x hx y hy

namespace Invariant

theorem start {groups : List (List α)} (h : Related R groups) :
    Invariant signature R (fun _ => False) (⟨groups, Dict.empty⟩ : State α σ) where
  related := h
  placed := fun _ hx => hx.elim
  represented := fun _ _ hi => absurd hi List.not_mem_nil
  sound := fun hx => absurd hx.1 List.not_mem_nil
  apart := fun hx => absurd hx.1 List.not_mem_nil

theorem lt_length (h : Invariant signature R done s) (k : σ) : ∀ i ∈ s.candidates k,
    i < s.groups.length := by
  intro i hi
  obtain ⟨r, hr⟩ := h.represented k i hi
  exact State.lt_of_representative hr

theorem isolate (h : Invariant signature R done s) (ha : R a a) :
    Invariant signature R done (s.isolate a) := by
  have hiff := fun k j x => State.hasAt_isolate (a := a) h.lt_length k j x
  refine ⟨h.related.append ha, fun x hx => ?_, fun k i hi => ?_, fun hx => ?_, fun hx hy => ?_⟩
  · obtain ⟨i, hi⟩ := h.placed x hx
    exact ⟨i, (hiff _ _ _).mpr hi⟩
  · obtain ⟨r, hr⟩ := h.represented k i hi
    refine ⟨r, ?_⟩
    rw [State.representative, State.isolate, State.getElem?_append_singleton (h.lt_length k i hi)]
    exact hr
  · exact h.sound ((hiff _ _ _).mp hx)
  · exact h.apart ((hiff _ _ _).mp hx) ((hiff _ _ _).mp hy)

/-- A candidate's representative is one of its elements. -/
theorem hasAt_representative {k : σ} {i : ℕ} {r : α} (hi : i ∈ s.candidates k)
    (hr : s.representative i = some r) : s.HasAt k i r := by
  obtain ⟨g, hg⟩ := State.exists_of_representative hr
  exact ⟨hi, r :: g, hg, List.mem_cons_self⟩

theorem hasAt_related (h : Invariant signature R done s) {k l : σ} {i : ℕ} {x y : α}
    (hx : s.HasAt k i x) (hy : s.HasAt l i y) : R x y := by
  obtain ⟨g, hg, hxg⟩ := hx.2
  obtain ⟨g', hg', hyg⟩ := hy.2
  obtain rfl := Option.some.inj (hg.symm.trans hg')
  exact h.related g (List.mem_iff_getElem?.mpr ⟨i, hg⟩) x hxg y hyg

theorem join (h : Invariant signature R done s) (hR : Equivalence R) {i : ℕ} {r : α}
    (hi : i ∈ s.candidates (signature a)) (hr : s.representative i = some r) (hra : R r a) :
    Invariant signature R (fun x => done x ∨ x = a) (s.join i a) := by
  have hlt := h.lt_length _ i hi
  have hiff := fun k j x => State.hasAt_join (a := a) k j x hlt
  have hri := hasAt_representative hi hr
  obtain ⟨g, hg⟩ := State.exists_of_representative hr
  refine ⟨h.related.modify hR hg hra, fun x hx => ?_, fun k j hj => ?_, fun hx => ?_,
    fun {k l j j' x y} hx hy hxy => ?_⟩
  · rcases hx with hx | rfl
    · obtain ⟨j, hj⟩ := h.placed x hx
      exact ⟨j, (hiff _ _ _).mpr (.inl hj)⟩
    · exact ⟨i, (hiff _ _ _).mpr (.inr ⟨hi, rfl, rfl⟩)⟩
  · obtain ⟨r', hr'⟩ := h.represented k j hj
    obtain ⟨g', hg'⟩ := State.exists_of_representative hr'
    refine ⟨r', ?_⟩
    by_cases hij : i = j <;>
      simp [State.representative, State.join, hij, hg']
  · rcases (hiff _ _ _).mp hx with hx | ⟨hj, rfl, rfl⟩
    · exact ⟨.inl (h.sound hx).1, (h.sound hx).2⟩
    · exact ⟨.inr rfl, (h.sound hri).2.symm.trans (h.sound (hasAt_representative hj hr)).2⟩
  · -- The new element is related to its candidate's representative.
    have old : ∀ {k j x}, (s.join i a).HasAt k j x → ∃ z l, s.HasAt l j z ∧ R z x := by
      intro k j x hx
      rcases (hiff _ _ _).mp hx with hx | ⟨hj, rfl, rfl⟩
      · exact ⟨x, k, hx, hR.refl x⟩
      · exact ⟨r, _, hri, hra⟩
    obtain ⟨z, m, hz, hzx⟩ := old hx
    obtain ⟨w, n, hw, hwy⟩ := old hy
    exact h.apart hz hw (hR.trans (hR.trans hzx hxy) (hR.symm hwy))

theorem openGroup (h : Invariant signature R done s) (hR : Equivalence R)
    (hsig : ∀ x, done x → R x a → signature x = signature a)
    (hnone : ∀ i ∈ s.candidates (signature a), ∀ r, s.representative i = some r → ¬ R r a) :
    Invariant signature R (fun x => done x ∨ x = a) (s.openGroup (signature a) a) := by
  have hiff := fun k j x => State.hasAt_openGroup (a := a) h.lt_length (signature a) k j x
  have hnew : ∀ {k j x}, s.HasAt k j x → ¬ R x a := by
    intro k j x hx hxa
    have hk : k = signature a := (h.sound hx).2.symm.trans (hsig x (h.sound hx).1 hxa)
    rw [hk] at hx
    obtain ⟨r, hr⟩ := h.represented _ j hx.1
    exact hnone j hx.1 r hr (hR.trans (h.hasAt_related (hasAt_representative hx.1 hr) hx) hxa)
  refine ⟨h.related.append (hR.refl a), fun x hx => ?_, fun k j hj => ?_, fun hx => ?_,
    fun {k l j j' x y} hx hy hxy => ?_⟩
  · rcases hx with hx | rfl
    · obtain ⟨j, hj⟩ := h.placed x hx
      exact ⟨j, (hiff _ _ _).mpr (.inl hj)⟩
    · exact ⟨_, (hiff _ _ _).mpr (.inr ⟨rfl, rfl, rfl⟩)⟩
  · by_cases hn : j = s.groups.length
    · exact ⟨a, by simp [State.representative, State.openGroup, hn]⟩
    · have hold : j ∈ s.candidates k := by
        rw [State.candidates_openGroup] at hj
        split_ifs at hj
        · simpa [hn] using hj
        · exact hj
      obtain ⟨r, hr⟩ := h.represented k j hold
      refine ⟨r, ?_⟩
      rw [State.representative, State.openGroup,
        State.getElem?_append_singleton (h.lt_length k j hold)]
      exact hr
  · rcases (hiff _ _ _).mp hx with hx | ⟨rfl, rfl, rfl⟩
    · exact ⟨.inl (h.sound hx).1, (h.sound hx).2⟩
    · exact ⟨.inr rfl, rfl⟩
  · rcases (hiff _ _ _).mp hx with hx' | ⟨-, hj, hxa⟩
    · rcases (hiff _ _ _).mp hy with hy' | ⟨-, hj', hya⟩
      · exact h.apart hx' hy' hxy
      · exact absurd (hya ▸ hxy) (hnew hx')
    · rcases (hiff _ _ _).mp hy with hy' | ⟨-, hj', hya⟩
      · exact absurd (hR.symm (hxa ▸ hxy)) (hnew hy')
      · exact hj.trans hj'.symm

/-- What placing one element does. -/
theorem place (h : Invariant signature R done s) (hd : Decides signature equivalent D R)
    (hdone : ∀ x, done x → D x) (ha : D a) : ∃ s', place signature equivalent s a = some s' ∧
      Invariant signature R (fun x => done x ∨ x = a) s' ∧ Extends s.groups s'.groups := by
  have hcmp : ∀ i ∈ s.candidates (signature a), ∃ b,
      (s.representative i).bind (equivalent · a) = some b ∧
        (b = true ↔ ∃ r, s.representative i = some r ∧ R r a) := by
    intro i hi
    obtain ⟨r, hr⟩ := h.represented _ i hi
    obtain ⟨b, hb, hiff⟩ :=
      hd.equivalent_eq (hdone r (h.sound (hasAt_representative hi hr)).1) ha
    exact ⟨b, by rw [hr, Option.bind_some, hb], by simp [hr, hiff]⟩
  rcases findM?_spec hcmp with ⟨i, hi, ⟨r, hr, hra⟩, hf⟩ | ⟨hn, hf⟩
  · exact ⟨s.join i a, by rw [Representatives.place, hf]; rfl, h.join hd.equivalence hi hr hra,
      extends_modify _ _ _⟩
  · exact ⟨s.openGroup (signature a) a, by rw [Representatives.place, hf]; rfl,
      h.openGroup hd.equivalence (fun x hx hxa => hd.signature_eq (hdone x hx) ha hxa)
        fun i hi r hr hra => hn i hi ⟨r, hr, hra⟩, extends_append _ _⟩

end Invariant

theorem foldlM_visit (hd : Decides signature equivalent D R) {l : List α}
    (hl : ∀ x ∈ l, isolated x = false → D x) (hs : Invariant signature R done s)
    (hdone : ∀ x, done x → D x) :
    ∃ s', l.foldlM (visit isolated signature equivalent) s = some s' ∧
      Invariant signature R (fun x => done x ∨ x ∈ l ∧ isolated x = false) s' ∧
        Extends s.groups s'.groups := by
  induction l generalizing s done with
  | nil =>
    refine ⟨s, rfl, ?_, Extends.refl _⟩
    simpa using hs
  | cons a l ih =>
    have hl' : ∀ x ∈ l, isolated x = false → D x := fun x hx => hl x (List.mem_cons_of_mem _ hx)
    cases hi : isolated a with
    | true =>
      obtain ⟨s', hs', hinv, hext⟩ := ih hl' (hs.isolate (a := a) (hd.equivalence.refl a)) hdone
      refine ⟨s', by rw [List.foldlM_cons, visit, if_pos hi]; exact hs', ?_,
        (extends_append _ _).trans hext⟩
      have heq : (fun x => done x ∨ x ∈ a :: l ∧ isolated x = false) =
          fun x => done x ∨ x ∈ l ∧ isolated x = false := by
        funext x
        by_cases hx : x = a <;> simp [hx, hi]
      rwa [heq]
    | false =>
      have ha := hl a List.mem_cons_self hi
      obtain ⟨s₁, hs₁, hinv₁, hext₁⟩ := hs.place hd hdone ha
      obtain ⟨s', hs', hinv, hext⟩ := ih hl' hinv₁ fun x hx => hx.elim (hdone x) fun h => h ▸ ha
      refine ⟨s', ?_, ?_, hext₁.trans hext⟩
      · rw [List.foldlM_cons, visit, if_neg (by simp [hi]), hs₁]
        exact hs'
      · have heq : (fun x => done x ∨ x ∈ a :: l ∧ isolated x = false) =
            fun x => (done x ∨ x = a) ∨ x ∈ l ∧ isolated x = false := by
          funext x
          by_cases hx : x = a <;> simp [hx, hi]
        rwa [heq]

theorem findM?_eq_some {ι : Type} {p : ι → Option Bool} {l : List ι} {i : ι}
    (h : l.findM? p = some (some i)) : p i = some true := by
  induction l with
  | nil => cases h
  | cons j l ih =>
    rw [List.findM?] at h
    cases hj : p j with
    | none => simp [hj] at h
    | some b =>
      cases b with
      | false => exact ih (by simpa [hj] using h)
      | true =>
        obtain rfl : j = i := by simpa [hj] using h
        exact hj

theorem flatten_modify_perm {groups : List (List α)} {i : ℕ} (hi : i < groups.length) (a : α) :
    (groups.modify i (· ++ [a])).flatten.Perm (groups.flatten ++ [a]) := by
  induction groups generalizing i with
  | nil => cases hi
  | cons g groups ih =>
    cases i with
    | zero =>
      simp only [List.modify_zero_cons, List.flatten_cons, List.append_assoc]
      exact List.perm_append_comm.append_left g
    | succ i =>
      simp only [List.modify_succ_cons, List.flatten_cons, List.append_assoc]
      exact (ih (Nat.lt_of_succ_lt_succ hi)).append_left g

/-- A visit puts the element into one class. -/
theorem flatten_visit_perm {s' : State α σ}
    (h : visit isolated signature equivalent s a = some s') :
    s'.groups.flatten.Perm (s.groups.flatten ++ [a]) := by
  have happend : (s.groups ++ [[a]]).flatten = s.groups.flatten ++ [a] := by simp
  rw [visit] at h
  split_ifs at h
  · obtain rfl := Option.some.inj h
    exact .of_eq happend
  · obtain ⟨found, hf, rfl⟩ := Option.map_eq_some_iff.mp h
    cases found with
    | none => exact .of_eq happend
    | some i =>
      have hi := findM?_eq_some (p := fun i => (s.representative i).bind (equivalent · a)) hf
      obtain ⟨r, hr, -⟩ := Option.bind_eq_some_iff.mp hi
      exact flatten_modify_perm (State.lt_of_representative hr) a

/-- Sorting puts every element into one class. -/
theorem flatten_sort_perm {groups groups' : List (List α)} {l : List α}
    (h : sort isolated signature equivalent groups l = some groups') :
    groups'.flatten.Perm (groups.flatten ++ l) := by
  obtain ⟨s', hs', rfl⟩ := Option.map_eq_some_iff.mp h
  have hall : ∀ (l : List α) (s : State α σ), l.foldlM (visit isolated signature equivalent) s = some s' →
      s'.groups.flatten.Perm (s.groups.flatten ++ l) := by
    intro l
    induction l with
    | nil =>
      intro s hs
      obtain rfl := Option.some.inj hs
      rw [List.append_nil]
    | cons a l ih =>
      intro s hs
      rw [List.foldlM_cons] at hs
      obtain ⟨s₁, hs₁, hs⟩ := Option.bind_eq_some_iff.mp hs
      have ha := (flatten_visit_perm hs₁).append_right l
      rw [List.append_assoc, List.singleton_append] at ha
      exact (ih s₁ hs).trans ha
  exact hall l _ hs'

/-- Elements are in one class exactly if they are related, and no class there was is split. -/
theorem sort_spec (isolated : α → Bool) (hd : Decides signature equivalent D R) {l : List α}
    (hl : ∀ x ∈ l, isolated x = false → D x) {groups : List (List α)} (hg : Related R groups) :
    ∃ groups', sort isolated signature equivalent groups l = some groups' ∧ Related R groups' ∧
      Extends groups groups' ∧ ∀ x ∈ l, ∀ y ∈ l, isolated x = false → isolated y = false → R x y →
        ∃ g ∈ groups', x ∈ g ∧ y ∈ g := by
  obtain ⟨s, hs, hinv, hext⟩ := foldlM_visit hd hl (Invariant.start hg) fun _ h => h.elim
  refine ⟨s.groups, by rw [sort, hs]; rfl, hinv.related, hext, fun x hx y hy hxi hyi hxy => ?_⟩
  obtain ⟨i, hi⟩ := hinv.placed x (.inr ⟨hx, hxi⟩)
  obtain ⟨j, hj⟩ := hinv.placed y (.inr ⟨hy, hyi⟩)
  obtain rfl := hinv.apart hi hj hxy
  obtain ⟨g, hg, hxg⟩ := hi.2
  obtain ⟨g', hg', hyg⟩ := hj.2
  obtain rfl := Option.some.inj (hg.symm.trans hg')
  exact ⟨g, List.mem_iff_getElem?.mpr ⟨i, hg⟩, hxg, hyg⟩

end Sorting

end Representatives
