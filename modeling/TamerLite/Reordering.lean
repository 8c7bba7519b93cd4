import Mathlib.Data.List.Induction
import Mathlib.Data.List.Nodup
import Mathlib.Data.Set.Lattice

/-! Reordering events that read some variables and write others. As long as
dependent events keep their order, each variable takes the values it took. -/

namespace Reordering

variable {α β F V : Type*}

/-- What the events read, write and do. -/
structure Effects (α F V : Type*) where
  reads : α → Set F
  writes : α → Set F
  apply : α → (F → V) → F → V
  frame : ∀ {a : α} {s : F → V} {f : F}, f ∉ writes a → apply a s f = s f
  congr : ∀ {a : α} {s t : F → V}, (∀ f ∈ reads a ∪ writes a, s f = t f) →
    ∀ f ∈ writes a, apply a s f = apply a t f

namespace Effects

variable (E : Effects α F V)

def exec (l : List α) (s : F → V) : F → V := l.foldl (fun s a => E.apply a s) s

/-- One of the two writes what the other reads or writes. -/
def Dependent (x y : α) : Prop :=
  ∃ f, f ∈ E.writes x ∧ f ∈ E.reads y ∪ E.writes y ∨ f ∈ E.writes y ∧ f ∈ E.reads x

/-- An event of `p` follows the same dependent events as it does in `l`. -/
def Respects (l p : List α) : Prop :=
  ∀ p₁ y p₂ l₁ l₂, p = p₁ ++ y :: p₂ → l = l₁ ++ y :: l₂ →
    ∀ x, E.Dependent x y → (x ∈ p₁ ↔ x ∈ l₁)

/-- The same effects under other names. -/
def comap (g : β → α) : Effects β F V where
  reads := fun b => E.reads (g b)
  writes := fun b => E.writes (g b)
  apply := fun b => E.apply (g b)
  frame := E.frame
  congr := E.congr

variable {E}

theorem exec_append (l l' : List α) (s : F → V) : E.exec (l ++ l') s = E.exec l' (E.exec l s) :=
  List.foldl_append

theorem exec_concat (l : List α) (a : α) (s : F → V) :
    E.exec (l ++ [a]) s = E.apply a (E.exec l s) := by
  rw [exec_append]
  rfl

theorem exec_comap (g : β → α) (l : List β) (s : F → V) :
    (E.comap g).exec l s = E.exec (l.map g) s := by
  rw [exec, exec, List.foldl_map]
  rfl

theorem exec_frame {l : List α} {s : F → V} {f : F} (h : ∀ x ∈ l, f ∉ E.writes x) :
    E.exec l s f = s f := by
  induction l using List.reverseRecOn with
  | nil => rfl
  | append_singleton l a ih =>
    rw [exec_concat, E.frame (h a (by simp))]
    exact ih fun x hx => h x (List.mem_append_left _ hx)

theorem Respects.init {l p : List α} {a : α} (h : E.Respects l (p ++ [a])) : E.Respects l p := by
  intro p₁ y p₂ l₁ l₂ hp hl
  exact h p₁ y (p₂ ++ [a]) l₁ l₂ (by simp [hp]) hl

/-- A variable has the value it has after an initial part of `l` with the same
writers of it. -/
theorem exec_eq {l p l₁ l₂ : List α} {s : F → V} {f : F} (hl : l.Nodup) (hp : p.Nodup)
    (hr : E.Respects l p) (hsplit : l = l₁ ++ l₂)
    (hf : ∀ x, f ∈ E.writes x → (x ∈ p ↔ x ∈ l₁)) : E.exec p s f = E.exec l₁ s f := by
  induction p using List.reverseRecOn generalizing l₁ l₂ f with
  | nil =>
    have hnone : ∀ x ∈ l₁, f ∉ E.writes x := by
      intro x hx hw
      exact List.not_mem_nil ((hf x hw).mpr hx)
    rw [exec_frame hnone]
    rfl
  | append_singleton p y ih =>
    obtain ⟨hp', -, hdisj⟩ := List.nodup_append.mp hp
    have hyp : y ∉ p := fun hy => hdisj y hy y (by simp) rfl
    rw [exec_concat]
    by_cases hw : f ∈ E.writes y
    · have hy : y ∈ l₁ := (hf y hw).mp (by simp)
      obtain ⟨a, b, rfl⟩ := List.append_of_mem hy
      have hsplit' : l = a ++ y :: (b ++ l₂) := by simp [hsplit]
      have hn : (a ++ y :: (b ++ l₂)).Nodup := hsplit' ▸ hl
      have hya : y ∉ a := fun h => (List.nodup_append.mp hn).2.2 y h y (by simp) rfl
      have hlast : ∀ x ∈ b, f ∉ E.writes x := by
        intro x hx hfx
        have hxy : x ≠ y := by
          rintro rfl
          exact (List.nodup_cons.mp (List.nodup_append.mp hn).2.1).1 (by simp [hx])
        have hxp : x ∈ p := by
          have hmem : x ∈ p ++ [y] := (hf x hfx).mpr (by simp [hx])
          simpa [hxy] using hmem
        have hxa := (hr p y [] a (b ++ l₂) rfl hsplit' x ⟨f, .inl ⟨hfx, .inr hw⟩⟩).mp hxp
        exact (List.nodup_append.mp hn).2.2 x hxa x (by simp [hx]) rfl
      have hagree : ∀ g ∈ E.reads y ∪ E.writes y, E.exec p s g = E.exec a s g := by
        intro g hg
        apply ih hp' hr.init hsplit'
        intro x hx
        exact hr p y [] a (b ++ l₂) rfl hsplit' x ⟨g, .inl ⟨hx, hg⟩⟩
      rw [E.congr hagree f hw, exec_append, ← List.singleton_append, exec_append,
        exec_frame hlast]
      rfl
    · rw [E.frame hw]
      apply ih hp' hr.init hsplit
      intro x hx
      have hxy : x ≠ y := by
        rintro rfl
        exact hw hx
      rw [← hf x hx]
      simp [hxy]

/-- What an event reads and writes is then as it was before it in `l`. -/
theorem exec_eq_before {l p₁ p₂ l₁ l₂ : List α} {y : α} {s : F → V} {f : F} (hl : l.Nodup)
    (hp : (p₁ ++ y :: p₂).Nodup) (hr : E.Respects l (p₁ ++ y :: p₂)) (hsplit : l = l₁ ++ y :: l₂)
    (hf : f ∈ E.reads y ∪ E.writes y) : E.exec p₁ s f = E.exec l₁ s f := by
  have hr₁ : E.Respects l p₁ := by
    intro q₁ z q₂ m₁ m₂ hq hm
    exact hr q₁ z (q₂ ++ y :: p₂) m₁ m₂ (by simp [hq]) hm
  apply exec_eq hl (List.nodup_append.mp hp).1 hr₁ hsplit
  intro x hx
  exact hr p₁ y p₂ l₁ l₂ rfl hsplit x ⟨f, .inl ⟨hx, hf⟩⟩

end Effects

end Reordering
