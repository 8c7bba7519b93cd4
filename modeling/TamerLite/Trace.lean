import TamerLite.Firing
import TamerLite.Reordering

/-! The states along a path of events, seen as values of fluents, so that the
events of the path can be reordered. -/

namespace TamerLite

open SearchSpace

theorem getValue_set (a : Assignments) (f g : Fluent) (v : ConstantNode) :
    getValue (a.set g.idx v) f = if f = g then (getValue a f).bind fun _ => some v else getValue a f := by
  by_cases h : f = g
  · subst h
    rw [if_pos rfl, getValue, getValue, List.getElem?_set_self']
    cases a[f.idx]? <;> rfl
  · have hne : g.idx ≠ f.idx := by
      intro he
      apply h
      cases f
      cases g
      simp_all
    rw [if_neg h, getValue, getValue, List.getElem?_set_ne hne]

theorem count_removeAll {cs : List Expression} {m m' : Multiset Expression} (x : Expression)
    (h : removeAll cs m = some m') : m'.count x + Multiset.count x cs = m.count x := by
  induction cs generalizing m with
  | nil =>
    obtain rfl := Option.some.inj h
    simp
  | cons y cs ih =>
    rw [removeAll] at h
    split_ifs at h with hy
    have hi := ih h
    by_cases hxy : x = y
    · subst hxy
      have hpos := Multiset.count_pos.mpr hy
      rw [Multiset.count_erase_self] at hi
      rw [← Multiset.cons_coe, Multiset.count_cons_self]
      omega
    · rw [Multiset.count_erase_of_ne hxy] at hi
      rw [← Multiset.cons_coe, Multiset.count_cons_of_ne hxy, hi]

section Effects

variable [Callables]

/-- `evaluate`, over any values of the fluents. -/
def evaluateAt (get : Fluent → Option ConstantNode) (exp : Expression) : Option ConstantNode :=
  (evalNodes get exp []).bind List.getLast?

theorem evaluateAt_getValue (exp : Expression) (a : Assignments) :
    evaluateAt (getValue a) exp = evaluate exp a := rfl

theorem evaluateAt_congr {get get' : Fluent → Option ConstantNode} {exp : Expression}
    (h : ∀ f ∈ getFluents exp, get f = get' f) : evaluateAt get exp = evaluateAt get' exp := by
  rw [evaluateAt, evaluateAt, evalNodes_congr exp h]

/-- The fluents after some effects; one that has no value gets none. -/
def effectsAt (effs : List Effect) (old new : Fluent → Option ConstantNode) :
    Fluent → Option ConstantNode :=
  effs.foldl (fun s eff f => if f = eff.fluent then (s f).bind fun _ => evaluateAt old eff.value
    else s f) new

theorem effectsAt_frame {effs : List Effect} {old new : Fluent → Option ConstantNode} {f : Fluent}
    (hf : f ∉ effs.map Effect.fluent) : effectsAt effs old new f = new f := by
  induction effs generalizing new with
  | nil => rfl
  | cons eff effs ih =>
    rw [List.map_cons, List.mem_cons, not_or] at hf
    rw [effectsAt, List.foldl_cons]
    refine (ih hf.2).trans ?_
    rw [if_neg hf.1]

theorem effectsAt_congr {effs : List Effect} {old new old' new' : Fluent → Option ConstantNode}
    {f : Fluent} (hold : ∀ eff ∈ effs, ∀ g ∈ getFluents eff.value, old g = old' g)
    (hnew : new f = new' f) : effectsAt effs old new f = effectsAt effs old' new' f := by
  induction effs generalizing new new' with
  | nil => exact hnew
  | cons eff effs ih =>
    apply ih (fun e he => hold e (List.mem_cons_of_mem _ he))
    have hv : evaluateAt old eff.value = evaluateAt old' eff.value :=
      evaluateAt_congr (hold eff List.mem_cons_self)
    simp only [hv, hnew]

theorem applyEffects_getValue {effs : List Effect} {old new a : Assignments}
    (h : applyEffects effs old new = some a) :
    getValue a = effectsAt effs (getValue old) (getValue new) := by
  induction effs generalizing new with
  | nil =>
    obtain rfl := Option.some.inj h
    rfl
  | cons eff effs ih =>
    obtain ⟨v, hv, h⟩ := applyEffects_cons.mp h
    rw [ih h]
    show effectsAt effs _ _ = effectsAt effs _ _
    congr 1
    funext f
    simp only [getValue_set, evaluateAt_getValue, hv]

theorem exists_applyEffects {effs : List Effect} {old : Assignments} (new : Assignments)
    (h : ∀ eff ∈ effs, (evaluate eff.value old).isSome) :
    ∃ a, applyEffects effs old new = some a := by
  induction effs generalizing new with
  | nil => exact ⟨new, rfl⟩
  | cons eff effs ih =>
    obtain ⟨v, hv⟩ := Option.isSome_iff_exists.mp (h eff List.mem_cons_self)
    obtain ⟨a, ha⟩ := ih (new.set eff.fluent.idx v) fun e he => h e (List.mem_cons_of_mem _ he)
    exact ⟨a, applyEffects_cons.mpr ⟨v, hv, ha⟩⟩

theorem evaluate_isSome_of_applyEffects {effs : List Effect} {old new a : Assignments}
    (h : applyEffects effs old new = some a) : ∀ eff ∈ effs, (evaluate eff.value old).isSome := by
  induction effs generalizing new with
  | nil => exact fun eff he => absurd he List.not_mem_nil
  | cons eff effs ih =>
    obtain ⟨v, hv, h⟩ := applyEffects_cons.mp h
    intro e he
    rcases List.mem_cons.mp he with rfl | he
    · rw [hv, Option.isSome_some]
    · exact ih h e he

variable (ss : SearchSpace)

/-- The events of the search space, by what they do to the fluents. -/
def eventEffects : Reordering.Effects (Action × ℕ) Fluent (Option ConstantNode) where
  reads := fun q => {f | f ∈ ss.reads q.1 q.2}
  writes := fun q => {f | f ∈ ss.writes q.1 q.2}
  apply := fun q s => match ss.event q.1 q.2 with
    | none => s
    | some te => effectsAt te.2.effects s s
  frame := by
    intro q s f hf
    cases hev : ss.event q.1 q.2 with
    | none => rfl
    | some te =>
      simp only [Set.mem_ofPred_eq, SearchSpace.writes, hev] at hf
      exact effectsAt_frame hf
  congr := by
    intro q s t h f hf
    cases hev : ss.event q.1 q.2 with
    | none => exact h f (.inr hf)
    | some te =>
      apply effectsAt_congr _ (h f (.inr hf))
      intro eff he g hg
      apply h g (.inl _)
      simp only [SearchSpace.reads, hev, Set.mem_ofPred_eq, List.mem_append, List.mem_flatMap]
      exact .inl (.inr ⟨eff, he, hg⟩)

theorem mutex_of_dependent {ss : SearchSpace} {q r : Action × ℕ}
    (h : (eventEffects ss).Dependent q r) : ss.mutex q r = true := by
  obtain ⟨f, h⟩ := h
  unfold SearchSpace.mutex
  split_ifs
  · rfl
  · simp only [Bool.not_eq_true', Bool.and_eq_false_iff, isDisjoint, List.all_eq_false,
      decide_eq_true_eq, not_not]
    rcases h with ⟨hw, hr | hw'⟩ | ⟨hw, hr⟩
    · exact .inl ⟨f, hr, hw⟩
    · exact .inr ⟨f, List.mem_append_right _ hw, hw'⟩
    · exact .inr ⟨f, List.mem_append_left _ hr, hw⟩

end Effects

/-! ### Traces -/

section Traces

variable [Callables]

/-- The events `l`, fired one after the other from the initial state, lead to
the given assignments and active conditions. -/
inductive Trace (ss : SearchSpace) : List (Action × ℕ) → Assignments → Multiset Expression → Prop
  | nil : Trace ss [] ss.initialState 0
  | snoc {l : List (Action × ℕ)} {a a' : Assignments} {active removed : Multiset Expression}
      {q : Action × ℕ} {te : Timing × Event} : Trace ss l a active →
      ss.event q.1 q.2 = some te → holds te.2.conditions a = true →
      removeAll te.2.endConditions active = some removed →
      applyEffects te.2.effects a a = some a' →
      (∀ x ∈ removed + te.2.startConditions, holds x a' = true) →
      Trace ss (l ++ [q]) a' (removed + te.2.startConditions)

variable {ss : SearchSpace} {l : List (Action × ℕ)} {a : Assignments} {active : Multiset Expression}

theorem Trace.holds (h : Trace ss l a active) : ∀ x ∈ active, holds x a = true := by
  cases h with
  | nil => exact fun x hx => absurd hx (Multiset.notMem_zero x)
  | snoc _ _ _ _ _ hh => exact hh

theorem Trace.getValue_eq (h : Trace ss l a active) :
    getValue a = (eventEffects ss).exec l (getValue ss.initialState) := by
  induction h with
  | nil => rfl
  | @snoc l a a' _ _ q te _ hev _ _ ha _ ih =>
    rw [Reordering.Effects.exec_concat, ← ih, applyEffects_getValue ha]
    simp only [eventEffects, hev]

theorem Trace.of_append {l' : List (Action × ℕ)} (h : Trace ss (l ++ l') a active) :
    ∃ a' active', Trace ss l a' active' := by
  induction l' using List.reverseRecOn generalizing a active with
  | nil => exact ⟨a, active, by simpa using h⟩
  | append_singleton l' q ih =>
    rw [← List.append_assoc] at h
    generalize hm : l ++ l' ++ [q] = m at h
    cases h with
    | nil => simp at hm
    | snoc h _ _ _ _ _ =>
      obtain ⟨hl, -⟩ := List.append_inj' hm rfl
      subst hl
      exact ih h

/-- What holds before an event of a trace. -/
theorem Trace.before {q : Action × ℕ} {l' : List (Action × ℕ)}
    (h : Trace ss (l ++ q :: l') a active) : ∃ a₁ active₁ te a₂, Trace ss l a₁ active₁ ∧
      ss.event q.1 q.2 = some te ∧ TamerLite.holds te.2.conditions a₁ = true ∧
      applyEffects te.2.effects a₁ a₁ = some a₂ := by
  rw [← List.singleton_append, ← List.append_assoc] at h
  obtain ⟨a', active', h⟩ := h.of_append
  generalize hm : l ++ [q] = m at h
  cases h with
  | nil => simp at hm
  | @snoc l₀ a₁ a₂ _ _ q₀ te h hev hc _ ha _ =>
    obtain ⟨hl, hq⟩ := List.append_inj' hm rfl
    obtain rfl := List.singleton_inj.mp hq
    subst hl
    exact ⟨a₁, _, te, _, h, hev, hc, ha⟩

/-- Firing an event, as far as its conditions and effects go. -/
def executeEvent (ss : SearchSpace) (a : Assignments) (q : Action × ℕ) : Option Assignments := do
  let te ← ss.event q.1 q.2
  if TamerLite.holds te.2.conditions a then applyEffects te.2.effects a a else none

def execute (ss : SearchSpace) (l : List (Action × ℕ)) : Option Assignments :=
  l.foldlM (executeEvent ss) ss.initialState

theorem execute_concat {q : Action × ℕ} : execute ss (l ++ [q]) =
    (execute ss l).bind fun a => executeEvent ss a q := by
  rw [execute, List.foldlM_append]
  simp only [List.foldlM_cons, List.foldlM_nil]
  cases h : List.foldlM (executeEvent ss) ss.initialState l with
  | none => simp [execute, h]
  | some a => simp [execute, h]

theorem Trace.execute_eq (h : Trace ss l a active) : execute ss l = some a := by
  induction h with
  | nil => rfl
  | snoc _ hev hc _ ha _ ih =>
    rw [execute_concat, ih]
    simp [executeEvent, hev, hc, ha]

/-- How often an event opens or closes a condition, for `g` its start or its
end conditions. -/
def occurs (ss : SearchSpace) (g : Event → List Expression) (x : Expression) (q : Action × ℕ) : ℕ :=
  match ss.event q.1 q.2 with
  | none => 0
  | some te => Multiset.count x (g te.2)

def opens (ss : SearchSpace) : Expression → Action × ℕ → ℕ := occurs ss Event.startConditions

def closes (ss : SearchSpace) : Expression → Action × ℕ → ℕ := occurs ss Event.endConditions

theorem Trace.count_active (h : Trace ss l a active) (x : Expression) :
    active.count x + (l.map (closes ss x)).sum = (l.map (opens ss x)).sum := by
  induction h with
  | nil => rfl
  | @snoc l a a' active removed q te _ hev _ hr _ _ ih =>
    have hc := count_removeAll x hr
    simp only [List.map_append, List.map_cons, List.map_nil, List.sum_append, List.sum_cons,
      List.sum_nil, add_zero, opens, closes, occurs, hev, Multiset.count_add] at ih ⊢
    omega

end Traces

end TamerLite
