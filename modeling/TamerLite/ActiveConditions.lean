import Mathlib.Algebra.Order.Group.Multiset
import Mathlib.Data.Finmap
import TamerLite.Firing

/-! The active conditions of a configuration depend on its running actions only:
whatever was opened and is no longer running has closed what it opened. -/

namespace TamerLite

open Difference SearchSpace

theorem removeAll_add {cs : List Expression} {m m' : Multiset Expression}
    (h : removeAll cs m = some m') : m' + Multiset.ofList cs = m := by
  induction cs generalizing m with
  | nil => simp_all [removeAll]
  | cons c cs ih =>
    by_cases hc : c ∈ m
    · rw [removeAll, if_pos hc] at h
      have hm := ih h
      rw [← Multiset.cons_coe, Multiset.add_cons, hm, Multiset.cons_erase hc]
    · rw [removeAll, if_neg hc] at h
      contradiction

variable {ss : SearchSpace}

/-- The conditions `g` of the events of `a` from position `k` on. -/
def conditionsFrom (ss : SearchSpace) (g : Event → List Expression) (a : Action) (k : ℕ) :
    Multiset Expression :=
  Multiset.ofList ((((ss.events a).getD []).drop k).flatMap fun te => g te.2)

/-- The conditions `g` of the events running actions have still to fire. -/
def remaining (ss : SearchSpace) (g : Event → List Expression)
    (todo : AList (fun _ : Action => ℕ × ℕ)) : Multiset Expression :=
  (todo.entries.map fun p => conditionsFrom ss g p.1 p.2.1).sum

def timedConditions (ss : SearchSpace) (g : Event → List Expression) : Multiset Expression :=
  match ss.timedAction with
  | none => 0
  | some a => conditionsFrom ss g a 0

theorem conditionsFrom_succ {g : Event → List Expression} {a : Action}
    {le : List (Timing × Event)} {k : ℕ} {te : Timing × Event} (hle : ss.events a = some le)
    (hte : le[k]? = some te) :
    conditionsFrom ss g a k = Multiset.ofList (g te.2) + conditionsFrom ss g a (k + 1) := by
  obtain ⟨hk, rfl⟩ := List.getElem?_eq_some_iff.mp hte
  simp only [conditionsFrom, hle, Option.getD_some]
  rw [List.drop_eq_getElem_cons hk, List.flatMap_cons, Multiset.coe_add]

theorem conditionsFrom_length {g : Event → List Expression} {a : Action}
    {le : List (Timing × Event)} {k : ℕ} (hle : ss.events a = some le) (hk : le.length ≤ k) :
    conditionsFrom ss g a k = 0 := by
  simp [conditionsFrom, hle, List.drop_eq_nil_of_le hk]

theorem entries_erase {todo : AList (fun _ : Action => ℕ × ℕ)} {a : Action} {p : ℕ × ℕ}
    (hl : todo.lookup a = some p) : ∃ l₁ l₂, todo.entries = l₁ ++ ⟨a, p⟩ :: l₂ ∧
      (todo.erase a).entries = l₁ ++ l₂ := by
  have hm : ⟨a, p⟩ ∈ todo.entries := AList.mem_lookup_iff.mp hl
  obtain ⟨b, l₁, l₂, hb, he, hk⟩ := List.exists_of_kerase
    (List.mem_keys.mpr ⟨p, hm⟩ : a ∈ todo.entries.keys)
  have hbp : b = p := by
    have hmb : ⟨a, b⟩ ∈ todo.entries := by simp [he]
    exact Option.some.inj ((AList.mem_lookup_iff.mpr hmb).symm.trans hl)
  subst hbp
  exact ⟨l₁, l₂, he, hk⟩

theorem remaining_erase {g : Event → List Expression} {todo : AList (fun _ : Action => ℕ × ℕ)}
    {a : Action} {p : ℕ × ℕ} (hl : todo.lookup a = some p) :
    remaining ss g todo = conditionsFrom ss g a p.1 + remaining ss g (todo.erase a) := by
  obtain ⟨l₁, l₂, he, hk⟩ := entries_erase hl
  simp only [remaining, he, hk, List.map_append, List.map_cons, List.sum_append, List.sum_cons]
  abel

theorem remaining_insert {g : Event → List Expression} {todo : AList (fun _ : Action => ℕ × ℕ)}
    {a : Action} {p : ℕ × ℕ} :
    remaining ss g (todo.insert a p) =
      conditionsFrom ss g a p.1 + remaining ss g (todo.erase a) := by
  simp [remaining, AList.insert, AList.erase, List.kinsert]

theorem remaining_erase_of_none {g : Event → List Expression}
    {todo : AList (fun _ : Action => ℕ × ℕ)} {a : Action} (hl : todo.lookup a = none) :
    remaining ss g (todo.erase a) = remaining ss g todo := by
  have hn : a ∉ todo.entries.keys := AList.lookup_eq_none.mp hl
  have he : (todo.erase a).entries = todo.entries := List.kerase_of_notMem_keys hn
  simp only [remaining, he]

/-- Firing event `k` of `a`, out of `n`, leaves the later ones. -/
theorem remaining_nextTodo {g : Event → List Expression}
    {todo : AList (fun _ : Action => ℕ × ℕ)} {a : Action} {le : List (Timing × Event)} {k j : ℕ}
    (hle : ss.events a = some le) :
    remaining ss g (Config.nextTodo todo a le.length k j) =
      conditionsFrom ss g a (k + 1) + remaining ss g (todo.erase a) := by
  unfold Config.nextTodo
  split_ifs with hk
  · rw [conditionsFrom_length hle hk, zero_add]
  · exact remaining_insert

/-- What is active is what the running actions have still to close, less what
they have still to open, up to what the timed action leaves open. -/
def Balanced (ss : SearchSpace) (c : Config) : Prop :=
  c.active + remaining ss Event.startConditions c.todo + timedConditions ss Event.endConditions =
    remaining ss Event.endConditions c.todo + timedConditions ss Event.startConditions

variable [Callables] {c c' : Config} {a : Action}

theorem balanced_opened {le : List (Timing × Event)} {te : Timing × Event}
    {is : List Instance} {j : ℕ} (hle : ss.events a = some le) (hl : c.todo.lookup a = none)
    (hf : c.fire te.2 (j, 0) (if 1 < le.length then c.todo.insert a (1, j) else c.todo) is =
      some c') :
    c'.active + Multiset.ofList te.2.endConditions =
        c.active + Multiset.ofList te.2.startConditions ∧
      ∀ g, remaining ss g c'.todo = conditionsFrom ss g a 1 + remaining ss g c.todo := by
  obtain ⟨removed, as, hr, -, -, rfl⟩ := Config.fire_eq_some.mp hf
  have hadd := removeAll_add hr
  refine ⟨?_, fun g => ?_⟩
  · change removed + _ + _ = _
    rw [← hadd]
    abel
  · change remaining ss g (if 1 < le.length then c.todo.insert a (1, j) else c.todo) = _
    split_ifs with hlen
    · rw [remaining_insert, remaining_erase_of_none hl]
    · rw [conditionsFrom_length hle (by omega), zero_add]

theorem Balanced.step (h : Balanced ss c) (hs : c.step ss a = some c') : Balanced ss c' := by
  rcases Config.step_eq_some.mp hs with ⟨le, k, j, te, hle, hl, hte, -, hf⟩ |
    ⟨le, te, b, hle, hl, ht, -, hte, -, -, hf⟩
  · obtain ⟨removed, as, hr, -, -, rfl⟩ := Config.fire_eq_some.mp hf
    have hadd := removeAll_add hr
    unfold Balanced at h ⊢
    simp only [remaining_nextTodo hle]
    simp only [remaining_erase hl, conditionsFrom_succ hle hte, ← hadd] at h
    refine Multiset.ext.mpr fun x => ?_
    have hx := congrArg (Multiset.count x) h
    simp only [Multiset.count_add] at hx ⊢
    omega
  · have hb : conditionsFrom ss Event.startConditions a 0 =
        conditionsFrom ss Event.endConditions a 0 := by
      have := ss.events_balanced ht hle
      simpa [conditionsFrom, hle, opened, closed] using this
    obtain ⟨hact, hrem⟩ := balanced_opened hle hl hf
    unfold Balanced at h ⊢
    rw [hrem, hrem]
    rw [conditionsFrom_succ hle hte, conditionsFrom_succ hle hte, zero_add] at hb
    refine Multiset.ext.mpr fun x => ?_
    have hx := congrArg (Multiset.count x) h
    have hbx := congrArg (Multiset.count x) hb
    have hax := congrArg (Multiset.count x) hact
    simp only [Multiset.count_add] at hx hbx hax ⊢
    omega

theorem balanced_initial (h : Config.initial ss = some c) : Balanced ss c := by
  rcases Config.initial_eq_some.mp h with ⟨ht, rfl⟩ | ⟨a, le, te, b, ht, hle, hte, -, -, hf⟩
  · simp [Balanced, remaining, timedConditions, ht]
  · obtain ⟨hact, hrem⟩ := balanced_opened hle (by simp) hf
    unfold Balanced
    rw [hrem, hrem]
    simp only [timedConditions, ht, conditionsFrom_succ hle hte, zero_add]
    have hz : ∀ g, remaining ss g ∅ = 0 := fun g => rfl
    simp only [hz] at *
    refine Multiset.ext.mpr fun x => ?_
    have hax := congrArg (Multiset.count x) hact
    simp only [Multiset.count_add, Multiset.count_zero] at hax ⊢
    omega

theorem fireRest_active {rest : List (Timing × Event)} {j k : ℕ}
    (h : c.fireRest j rest k = some c') :
    c'.active + closed rest = c.active + TamerLite.opened rest := by
  induction rest generalizing c k with
  | nil =>
    obtain rfl := Option.some.inj h
    rfl
  | cons te rest ih =>
    obtain ⟨d, hf, h⟩ := Config.fireRest_cons.mp h
    have hd := ih h
    obtain ⟨removed, as, hr, -, -, rfl⟩ := Config.fire_eq_some.mp hf
    have hadd := removeAll_add hr
    simp only [closed, TamerLite.opened, List.flatMap_cons, ← Multiset.coe_add] at hd ⊢
    refine Multiset.ext.mpr fun x => ?_
    have hx := congrArg (Multiset.count x) hd
    have hax := congrArg (Multiset.count x) hadd
    simp only [Multiset.count_add] at hx hax ⊢
    omega

theorem Balanced.stepWith {b : Bool} (h : Balanced ss c) (hs : c.stepWith ss b a = some c') :
    Balanced ss c' := by
  rcases Config.stepWith_eq_some.mp hs with ⟨-, hs⟩ | ⟨d, le, hc, hle, hs, hf⟩
  · exact h.step hs
  · have hd := h.step hs
    obtain ⟨le', te, bounds, hle', hlen, hl, hte, -, hfd⟩ := Config.step_of_compresses hc hs
    obtain rfl := Option.some.inj (hle.symm.trans hle')
    have hact := fireRest_active hf
    have htodo := (Config.fireRest_spec hf).1
    obtain ⟨removed, as, -, -, -, rfl⟩ := Config.fire_eq_some.mp hfd
    have hrest : ∀ g : Event → List Expression,
        conditionsFrom ss g a 1 = Multiset.ofList (le.tail.flatMap fun te => g te.2) := by
      intro g
      simp [conditionsFrom, hle]
    unfold Balanced at hd ⊢
    rw [htodo]
    simp only [remaining_insert, hrest] at hd
    simp only [closed, TamerLite.opened] at hact
    have hee : (c.todo.insert a (1, c.instances.length)).erase a = c.todo.erase a := by
      simp [AList.insert, AList.erase]
    simp only [hee]
    refine Multiset.ext.mpr fun x => ?_
    have hx := congrArg (Multiset.count x) hd
    have hax := congrArg (Multiset.count x) hact
    simp only [Multiset.count_add] at hx hax ⊢
    omega

theorem Config.Reachable.balanced {b : Bool} (h : Config.Reachable ss b c) : Balanced ss c := by
  obtain ⟨c₀, as, h₀, hr⟩ := h
  exact Config.runWith_induct Balanced.stepWith (balanced_initial h₀) hr

end TamerLite
