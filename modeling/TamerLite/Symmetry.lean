import Mathlib.Data.List.Nodup
import TamerLite.Acceptance
import TamerLite.FirstUse

/-! Symmetry breaking: the tables it reads, what the encoder establishes of the
classes of equivalent objects, and why it loses no solvable problem. -/

namespace TamerLite

open SearchSpace

/-- The object right before `o` in a group. -/
def prevInGroup : List Object → Object → Option Object
  | q :: p :: group, o => if p = o then some q else prevInGroup (p :: group) o
  | _, _ => none

def prevEquivalentObject (groups : List (List Object)) (o : Object) : Option Object :=
  groups.findSome? (prevInGroup · o)

/-- The actions an object is a parameter of. -/
def objToActions (actionObjects : List (List Object)) (q : Object) : List Action :=
  ((List.range actionObjects.length).map Action.mk).filter fun a => q ∈ actionObjects.getD a.idx []

/-- The second table of `_compute_obj_to_prev_actions_map`. -/
def computeObjToPrevActionsMap (groups : List (List Object)) (actionObjects : List (List Object))
    (objectNames : ℕ) : List (List Action) :=
  (List.range objectNames).map fun i =>
    ((prevEquivalentObject groups ⟨i⟩).map (objToActions actionObjects)).getD []

theorem exists_of_prevInGroup {group : List Object} {o q : Object}
    (h : prevInGroup group o = some q) : ∃ pre post, group = pre ++ q :: o :: post := by
  induction group with
  | nil => simp [prevInGroup] at h
  | cons p group ih =>
    cases group with
    | nil => simp [prevInGroup] at h
    | cons p' group =>
      rw [prevInGroup] at h
      split_ifs at h with he
      · obtain rfl := Option.some.inj h
        exact ⟨[], group, by simp [he]⟩
      · obtain ⟨pre, post, hg⟩ := ih h
        exact ⟨p :: pre, post, by rw [hg]; rfl⟩

theorem exists_of_prevEquivalentObject {groups : List (List Object)} {o q : Object}
    (h : prevEquivalentObject groups o = some q) :
    ∃ pre post, groups.flatten = pre ++ q :: o :: post := by
  obtain ⟨group, hm, hg⟩ := List.exists_of_findSome?_eq_some h
  obtain ⟨pre, post, rfl⟩ := exists_of_prevInGroup hg
  obtain ⟨before, after, rfl⟩ := List.mem_iff_append.mp hm
  exact ⟨before.flatten ++ pre, post ++ after.flatten, by simp⟩

theorem idxOf_prevEquivalentObject_lt {groups : List (List Object)} (hn : groups.flatten.Nodup)
    {o q : Object} (h : prevEquivalentObject groups o = some q) :
    groups.flatten.idxOf q < groups.flatten.idxOf o := by
  obtain ⟨pre, post, he⟩ := exists_of_prevEquivalentObject h
  rw [he] at hn ⊢
  obtain ⟨-, hcons, hdisj⟩ := List.nodup_append'.mp hn
  have hq : q ∉ pre := fun hm => hdisj hm List.mem_cons_self
  have ho : o ∉ pre := fun hm => hdisj hm (List.mem_cons_of_mem _ List.mem_cons_self)
  have hqo : q ≠ o := fun h => (List.nodup_cons.mp hcons).1 (h ▸ List.mem_cons_self)
  rw [List.idxOf_append_of_notMem hq, List.idxOf_append_of_notMem ho, List.idxOf_cons_self,
    List.idxOf_cons_ne _ hqo]
  omega

/-- Objects are first used in the order of their groups. -/
def discipline (actionObjects groups : List (List Object)) (hn : groups.flatten.Nodup) :
    FirstUse.Discipline Action Object where
  objects := fun a => actionObjects.getD a.idx []
  prev := prevEquivalentObject groups
  rank := fun o => groups.flatten.idxOf o
  rank_lt := idxOf_prevEquivalentObject_lt hn

namespace SearchSpace

/-- The search space without symmetry breaking. -/
def withoutSymmetry (ss : SearchSpace) : SearchSpace :=
  { ss with actionObjects := none, objToPrevActionsMap := none }

variable [Callables]

/-- The search expands only relevant actions. -/
def AcceptedWithin (ss : SearchSpace) (tn : DeltaSimpleTemporalNetwork) (b : Bool)
    (relevantActions as : List Action) : Prop :=
  Accepted ss tn b as ∧ ∀ a ∈ as, a ∈ relevantActions

/-- What the encoder establishes of the classes of equivalent objects: swapping
two neighbours of a class in the actions of a plan gives a plan. -/
structure Interchangeable (ss : SearchSpace) (tn : DeltaSimpleTemporalNetwork) (b : Bool)
    (relevantActions : List Action) (actionObjects groups : List (List Object)) : Prop where
  nodup : groups.flatten.Nodup
  objects_eq : ss.actionObjects = some actionObjects
  prevActions_eq : ∃ n, ss.objToPrevActionsMap =
    some (computeObjToPrevActionsMap groups actionObjects n) ∧ ∀ o ∈ groups.flatten, o.idx < n
  swaps : ∀ o q, prevEquivalentObject groups o = some q → ∃ f,
    (discipline actionObjects groups nodup).Swaps
      (AcceptedWithin ss.withoutSymmetry tn b relevantActions) q o f

/-- Symmetry breaking is off, or its classes are interchangeable. -/
def SymmetrySound (ss : SearchSpace) (tn : DeltaSimpleTemporalNetwork) (b : Bool)
    (relevantActions : List Action) : Prop :=
  ss.actionObjects = none ∨ ss.objToPrevActionsMap = none ∨
    ∃ actionObjects groups, Interchangeable ss tn b relevantActions actionObjects groups

end SearchSpace

variable {ss : SearchSpace} {tn : DeltaSimpleTemporalNetwork} {b : Bool}
  {relevantActions done : List Action} {actionObjects groups : List (List Object)} {a : Action}

theorem mem_objToActions {q : Object} (h : q ∈ actionObjects.getD a.idx []) :
    a ∈ objToActions actionObjects q := by
  have hlt : a.idx < actionObjects.length := by
    by_contra hge
    rw [List.getD_eq_getElem?_getD, List.getElem?_eq_none (not_lt.mp hge)] at h
    exact List.not_mem_nil h
  refine List.mem_filter.mpr ⟨List.mem_map.mpr ⟨a.idx, List.mem_range.mpr hlt, rfl⟩, ?_⟩
  simpa using h

/-- The source's test asks no more than that the predecessors are used. -/
theorem symmetryAllowsOpening_of_allows {n : ℕ} {hn : groups.flatten.Nodup}
    (ho : ss.actionObjects = some actionObjects)
    (hp : ss.objToPrevActionsMap = some (computeObjToPrevActionsMap groups actionObjects n))
    (h : (discipline actionObjects groups hn).Allows done a) :
    ss.symmetryAllowsOpening done a = true := by
  rw [symmetryAllowsOpening, ho, hp]
  simp only [List.all_eq_true]
  intro o hoa
  cases hprev : (computeObjToPrevActionsMap groups actionObjects n).getD o.idx [] with
  | nil => simp
  | cons a' l =>
    have hlt : o.idx < (computeObjToPrevActionsMap groups actionObjects n).length := by
      by_contra hge
      rw [List.getD_eq_getElem?_getD, List.getElem?_eq_none (not_lt.mp hge)] at hprev
      contradiction
    rw [List.getD_eq_getElem?_getD, List.getElem?_eq_getElem hlt] at hprev
    simp only [computeObjToPrevActionsMap, List.getElem_map, List.getElem_range,
      Option.getD_some] at hprev
    cases hq : prevEquivalentObject groups o with
    | none => rw [hq] at hprev; contradiction
    | some q =>
      obtain ⟨b, hb, hqb⟩ := h o hoa q hq
      have hmem : b ∈ a' :: l := by
        rw [hq] at hprev
        rw [← hprev]
        exact mem_objToActions hqb
      rcases List.mem_cons.mp hb with rfl | hb
      · simp [hmem]
      · simp only [Bool.or_eq_true, List.any_eq_true, decide_eq_true_eq]
        exact .inr ⟨b, hb, hmem⟩

theorem mem_of_objToActions {q : Object} (h : a ∈ objToActions actionObjects q) :
    q ∈ actionObjects.getD a.idx [] := by
  simpa using (List.mem_filter.mp h).2

/-! ### Running without symmetry breaking -/

@[simp] theorem mutex_withoutSymmetry (p q : Action × ℕ) :
    ss.withoutSymmetry.mutex p q = ss.mutex p q := rfl

@[simp] theorem predecessorEdges_withoutSymmetry (eId : Action × ℕ) (ev : Timepoint)
    (isPredecessor : Bool) (path : List (Action × ℕ × ℕ)) :
    ss.withoutSymmetry.predecessorEdges eId ev isPredecessor path =
      ss.predecessorEdges eId ev isPredecessor path := by
  induction path generalizing isPredecessor with
  | nil => rfl
  | cons p path ih => simp only [predecessorEdges, ih, mutex_withoutSymmetry]; rfl

theorem advance_withoutSymmetry (d : ℕ) (s : State) (a : Action) :
    ss.withoutSymmetry.advance d s a = ss.advance d s a := rfl

variable [Callables]

theorem actions_of_expandEvent {state newState s' : State} {e : Event} {index id : ℕ}
    {po : Option PendingOpening} (h : ss.expandEvent tn state newState e index id po = some s') :
    s'.path.map Prod.fst = newState.path.map Prod.fst ++ [e.action] := by
  obtain ⟨_, _, -, -, -, _, -, rfl⟩ := expandEvent_eq_some.mp h
  simp

theorem actions_of_expandRest {rest : List (Timing × Event)} {index id : ℕ} {s s' : State}
    (h : ss.expandRest tn rest index id s = some s') :
    ∃ l, s'.path.map Prod.fst = s.path.map Prod.fst ++ l := by
  induction rest generalizing s index id with
  | nil => exact ⟨[], by rw [← Option.some.inj h, List.append_nil]⟩
  | cons te rest ih =>
    obtain ⟨u, ⟨-, hu⟩, hrest⟩ := expandRest_cons.mp h
    obtain ⟨l, hl⟩ := ih hrest
    have := actions_of_expandEvent hu
    exact ⟨te.2.action :: l, by rw [hl, this]; simp⟩

theorem actions_of_step {d : ℕ} {s s' : State}
    (h : ss.getSuccessorStateWithCompression tn d s a b = some s') :
    ∃ l, s'.path.map Prod.fst = s.path.map Prod.fst ++ a :: l := by
  have hsingle : ∀ {t : State}, ss.getSuccessorStateWithCompression tn d s a false = some t →
      t.path.map Prod.fst = s.path.map Prod.fst ++ [a] := by
    intro t ht
    rcases getSuccessorState_eq_some.mp ht with ⟨le, k, id, te, hle, -, hte, -, -, he⟩ |
      ⟨le, te, hle, -, -, -, hte, -, -, he⟩
    · rw [actions_of_expandEvent he, ((ss.events_numbered hle).2 hte).1]
    · rw [openAction_eq hle hte] at he
      rw [actions_of_expandEvent he, ((ss.events_numbered hle).2 hte).1]
  rcases getSuccessorStateWithCompression_eq_some.mp h with ⟨-, h⟩ | ⟨-, le, t, next, -, ht, -, hr⟩
  · exact ⟨[], hsingle h⟩
  · obtain ⟨l, hl⟩ := actions_of_expandRest hr
    exact ⟨l, by rw [hl, hsingle ht, List.append_assoc]; rfl⟩

@[simp] theorem expandEvent_withoutSymmetry (state newState : State) (e : Event) (index id : ℕ)
    (po : Option PendingOpening) :
    ss.withoutSymmetry.expandEvent tn state newState e index id po =
      ss.expandEvent tn state newState e index id po := by
  simp only [expandEvent, predecessorEdges_withoutSymmetry]
  rfl

@[simp] theorem expandRest_withoutSymmetry (rest : List (Timing × Event)) (index id : ℕ) (s : State) :
    ss.withoutSymmetry.expandRest tn rest index id s = ss.expandRest tn rest index id s := by
  induction rest generalizing index id s with
  | nil => rfl
  | cons te rest ih => simp only [SearchSpace.expandRest, expandEvent_withoutSymmetry, ih]

/-- Where symmetry breaking refuses nothing, it changes nothing. -/
theorem step_withoutSymmetry {d : ℕ} {s : State}
    (h : s.todo.lookup a = none → ss.symmetryAllowsOpening (s.path.map Prod.fst) a = true) :
    ss.withoutSymmetry.getSuccessorStateWithCompression tn d s a b =
      ss.getSuccessorStateWithCompression tn d s a b := by
  have hoff : ss.withoutSymmetry.symmetryAllowsOpening (s.path.map Prod.fst) a = true := rfl
  cases hl : s.todo.lookup a with
  | none =>
    simp only [getSuccessorStateWithCompression, hl, h hl, hoff, SearchSpace.openAction,
      expandEvent_withoutSymmetry, expandRest_withoutSymmetry]
    rfl
  | some p =>
    simp only [getSuccessorStateWithCompression, hl, expandEvent_withoutSymmetry]
    rfl

/-- Symmetry breaking only refuses. -/
theorem withoutSymmetry_of_step {d : ℕ} {s s' : State}
    (h : ss.getSuccessorStateWithCompression tn d s a b = some s') :
    ss.withoutSymmetry.getSuccessorStateWithCompression tn d s a b = some s' := by
  rw [step_withoutSymmetry, h]
  intro hl
  by_contra hsym
  rw [Bool.not_eq_true] at hsym
  simp [getSuccessorStateWithCompression, hl, hsym] at h

theorem initial_withoutSymmetry (n : ℕ) : ss.withoutSymmetry.initial tn n = ss.initial tn n := by
  simp only [initial, openTimedAction, SearchSpace.openAction, expandEvent_withoutSymmetry]
  rfl

variable {s t : State} {c d : ℕ} {as : List Action}

theorem actions_of_run (h : Run ss tn b s c as t d) :
    ∀ x, x ∈ s.path.map Prod.fst ∨ x ∈ as → x ∈ t.path.map Prod.fst := by
  induction h with
  | refl => simp
  | step _ _ hs ih =>
    obtain ⟨l, hl⟩ := actions_of_step hs
    intro x hx
    rw [hl]
    rcases hx with hx | hx
    · exact List.mem_append_left _ (ih x (.inl hx))
    · rcases List.mem_append.mp hx with hx | hx
      · exact List.mem_append_left _ (ih x (.inr hx))
      · exact List.mem_append_right _ (by simp [List.mem_singleton.mp hx])

theorem run_withoutSymmetry (h : Run ss tn b s c as t d) :
    Run ss.withoutSymmetry tn b s c as t d := by
  induction h with
  | refl c => exact .refl s c
  | step _ hd hs ih => exact ih.step hd (withoutSymmetry_of_step hs)

/-- A run whose actions come in the order of their objects is never refused. -/
theorem run_of_follows (hi : Interchangeable ss tn b relevantActions actionObjects groups)
    (h : Run ss.withoutSymmetry tn b s c as t d)
    (hdone : ∀ x ∈ done, x ∈ s.path.map Prod.fst)
    (hf : (discipline actionObjects groups hi.nodup).Follows done as) :
    Run ss tn b s c as t d := by
  induction h with
  | refl c => exact .refl s c
  | step hr hd hs ih =>
    obtain ⟨hf, ha⟩ := FirstUse.Discipline.follows_concat.mp hf
    refine (ih hf).step hd ?_
    rw [← step_withoutSymmetry, hs]
    intro _
    obtain ⟨n, hp, -⟩ := hi.prevActions_eq
    refine symmetryAllowsOpening_of_allows hi.objects_eq hp (ha.mono fun x hx => ?_)
    refine actions_of_run (ih hf) x ?_
    exact (List.mem_append.mp hx).imp_left (hdone x)

theorem acceptedWithin_withoutSymmetry (h : AcceptedWithin ss tn b relevantActions as) :
    AcceptedWithin ss.withoutSymmetry tn b relevantActions as := by
  obtain ⟨⟨n, s₀, s, m, h₀, hr, hg⟩, hrel⟩ := h
  exact ⟨⟨n, s₀, s, m, by rw [initial_withoutSymmetry, h₀], run_withoutSymmetry hr, hg⟩, hrel⟩

/-- What the search space accepts without symmetry breaking it accepts, after
renaming, with it. -/
theorem acceptedWithin_of_interchangeable
    (hi : Interchangeable ss tn b relevantActions actionObjects groups)
    (h : AcceptedWithin ss.withoutSymmetry tn b relevantActions as) :
    ∃ as', as'.length = as.length ∧ AcceptedWithin ss tn b relevantActions as' := by
  let D := discipline actionObjects groups hi.nodup
  obtain ⟨as', hl, hf, hgood⟩ := D.exists_follows hi.swaps FirstUse.Discipline.closed_nil h
  obtain ⟨⟨n, s₀, s, m, h₀, hr, hg⟩, hrel⟩ := hgood
  rw [initial_withoutSymmetry] at h₀
  exact ⟨as', hl, ⟨n, s₀, s, m, h₀, run_of_follows hi hr (by simp) hf, hg⟩, hrel⟩

/-- In interchangeable classes a predecessor is always used by some action, so
the source's test asks exactly that it is used by now. -/
theorem allows_of_symmetryAllowsOpening
    (hi : Interchangeable ss tn b relevantActions actionObjects groups)
    (h : ss.symmetryAllowsOpening done a = true) :
    (discipline actionObjects groups hi.nodup).Allows done a := by
  obtain ⟨n, hp, hbound⟩ := hi.prevActions_eq
  intro o ho q hq
  obtain ⟨f, hf⟩ := hi.swaps o q hq
  have hused : f a ∈ objToActions actionObjects q := by
    refine mem_objToActions ?_
    change q ∈ (discipline actionObjects groups hi.nodup).objects (f a)
    rw [hf.objects]
    exact List.mem_map.mpr ⟨o, ho, Equiv.swap_apply_right q o⟩
  have hlt : o.idx < n := by
    obtain ⟨pre, post, hg⟩ := exists_of_prevEquivalentObject hq
    exact hbound o (by simp [hg])
  have hprev : (computeObjToPrevActionsMap groups actionObjects n).getD o.idx [] =
      objToActions actionObjects q := by
    rw [List.getD_eq_getElem?_getD, computeObjToPrevActionsMap, List.getElem?_map,
      List.getElem?_range hlt, Option.map_some, Option.getD_some]
    change ((prevEquivalentObject groups o).map _).getD [] = _
    rw [show prevEquivalentObject groups o = some q from hq, Option.map_some, Option.getD_some]
  rw [symmetryAllowsOpening, hi.objects_eq, hp, List.all_eq_true] at h
  have hall := h o ho
  rw [hprev] at hall
  simp only [Bool.or_eq_true, List.isEmpty_iff, decide_eq_true_eq, List.any_eq_true] at hall
  rcases hall with (he | ha) | ⟨b', hb', hm⟩
  · rw [he] at hused
    exact absurd hused List.not_mem_nil
  · exact ⟨a, List.mem_cons_self, mem_of_objToActions ha⟩
  · exact ⟨b', List.mem_cons_of_mem _ hb', mem_of_objToActions hm⟩

end TamerLite
