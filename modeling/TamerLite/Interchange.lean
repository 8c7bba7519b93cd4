import Mathlib.Data.Fintype.Prod
import TamerLite.EquivalentObjects
import TamerLite.Renaming
import TamerLite.Search

/-! Where grounding carries the swaps of equivalent objects over to the actions, the encoder's
classes are interchangeable in the search space, so that symmetry breaking loses no plan. -/

namespace TamerLite

open FNode SearchSpace

theorem exists_group_of_prevEquivalentObject {groups : List (List Object)} {o q : Object}
    (h : prevEquivalentObject groups o = some q) : ∃ group ∈ groups, q ∈ group ∧ o ∈ group := by
  obtain ⟨group, hm, hg⟩ := List.exists_of_findSome?_eq_some h
  obtain ⟨pre, post, rfl⟩ := exists_of_prevInGroup hg
  exact ⟨_, hm, by simp, by simp⟩

section Grounded

variable [Callables]

/-- How a search space reads the problem it encodes: the numbers of its ground fluents and
objects, the values of its constants and the conjuncts of its goal. -/
structure Grounding (P : EncodedProblem) (ss : SearchSpace) where
  fluentIds : FNode → Option Fluent
  objectIds : UPObject → Object
  value : FNode → ConstantNode
  reads : FNode → Assignments → Prop
  fluents : ∀ {f v}, getValue ss.initialState f = some v →
    ∃ e ∈ P.lifted.groundFluents, fluentIds e = some f
  objects : ∀ a ∈ P.lifted.objects, ∀ b ∈ P.lifted.objects, objectIds a = objectIds b → a = b
  initialState : ∀ {e v f}, P.lifted.Assigns e v → fluentIds e = some f →
    getValue ss.initialState f = some (value v)
  goal : ∀ A, holds ss.goal A = true ↔ ∀ c ∈ P.conjuncts, reads c A

namespace Grounding

variable {P : EncodedProblem} {ss : SearchSpace} {tn : DeltaSimpleTemporalNetwork} {b : Bool}
  {relevantActions : List Action} {actionObjects : List (List Object)} {G : Grounding P ss}
  {ρ : Renaming} {x y : UPObject}

variable (G) in
/-- Swapping two objects in the problem is this renaming of the search space's numbers. -/
structure Carries (x y : UPObject) (ρ : Renaming) : Prop where
  object : ρ.object = Equiv.swap (G.objectIds x) (G.objectIds y)
  involutive : Function.Involutive ρ.fluent
  fluentIds : ∀ {e f}, e ∈ P.lifted.groundFluents → G.fluentIds e = some f →
    G.fluentIds (e.rename (Equiv.swap x y)) = some (ρ.fluent f)
  value : ∀ {e v}, P.lifted.Assigns e v → G.value (v.rename (Equiv.swap x y)) = ρ.value (G.value v)
  reads : ∀ {c d A B}, c ∈ P.conjuncts → d ∈ P.conjuncts →
    FNode.Reordered (c.rename (Equiv.swap x y)) d → ρ.Related A B → G.reads c A → G.reads d B

/-- The renaming takes the actions of the search space to each other. -/
structure RenamesActions (ss : SearchSpace) (relevantActions : List Action)
    (actionObjects : List (List Object)) (ρ : Renaming) : Prop where
  callables : ρ.KeepsCallables
  events : ∀ {a : Action} {le : List (Timing × Event)} {te : Timing × Event},
    ss.events a = some le → le[0]? = some te → ∃ le' te',
      ss.events (ρ.action a) = some le' ∧ le'[0]? = some te' ∧ ρ.OfEvent te.2 te'.2
  objects : ∀ a, actionObjects.getD (ρ.action a).idx [] = (actionObjects.getD a.idx []).map ρ.object
  fixes : ∀ a, (actionObjects.getD a.idx []).map ρ.object = actionObjects.getD a.idx [] →
    ρ.action a = a
  relevant : ∀ a ∈ relevantActions, ρ.action a ∈ relevantActions

theorem Carries.symm (h : G.Carries x y ρ) : G.Carries y x ρ where
  object := by rw [h.object, Equiv.swap_comm]
  involutive := h.involutive
  fluentIds := by
    rw [Equiv.swap_comm]
    exact h.fluentIds
  value := by
    rw [Equiv.swap_comm]
    exact h.value
  reads := by
    rw [Equiv.swap_comm]
    exact h.reads

theorem getValue_initialState (h : G.Carries x y ρ) (hxy : P.SameClass x y) {f : Fluent}
    {v : ConstantNode} (hv : getValue ss.initialState f = some v) :
    getValue ss.initialState (ρ.fluent f) = some (ρ.value v) := by
  obtain ⟨e, he, hf⟩ := G.fluents hv
  obtain ⟨w, hw⟩ := P.complete.assigns he
  obtain rfl : G.value w = v := Option.some.inj ((G.initialState hw hf).symm.trans hv)
  have hw' := (hxy.2.initialState e w).mpr hw
  rw [G.initialState hw' (h.fluentIds he hf), h.value hw]

/-- Interchangeable objects leave the search space's initial state as it is. -/
theorem related_initialState (h : G.Carries x y ρ) (hxy : P.SameClass x y) :
    ρ.Related ss.initialState ss.initialState := by
  intro f
  cases hv : getValue ss.initialState f with
  | some v => exact getValue_initialState h hxy hv
  | none =>
    cases hv' : getValue ss.initialState (ρ.fluent f) with
    | none => rfl
    | some v =>
      have hback := getValue_initialState h hxy hv'
      rw [h.involutive f, hv] at hback
      contradiction

theorem holds_goal (h : G.Carries x y ρ) (hxy : P.SameClass x y) {A B : Assignments}
    (hr : ρ.Related A B) (hA : holds ss.goal A = true) : holds ss.goal B = true := by
  rw [G.goal] at hA ⊢
  intro d hd
  obtain ⟨c', hc', hcd⟩ := hxy.2.conjuncts.2 d hd
  obtain ⟨c, hc, rfl⟩ := List.mem_map.mp hc'
  exact h.reads hc hd hcd hr (hA c hc)

theorem renames (h : G.Carries x y ρ)
    (ha : RenamesActions ss relevantActions actionObjects ρ) (hxy : P.SameClass x y) :
    ss.Renames ρ where
  callables := ha.callables
  events := ha.events
  initialState := related_initialState h hxy
  goal := fun _ _ => holds_goal h hxy

theorem nodup_objectIds (G : Grounding P ss) (hn : P.lifted.objects.Nodup) {allObjects : List UPObject}
    (hall : allObjects.Perm P.lifted.objects) {classes : List (List UPObject)}
    (hperm : classes.flatten.Perm allObjects) :
    (classes.map (List.map G.objectIds)).flatten.Nodup := by
  rw [← List.map_flatten]
  have hmem : ∀ {o}, o ∈ classes.flatten → o ∈ P.lifted.objects := fun ho =>
    hall.mem_iff.mp (hperm.mem_iff.mp ho)
  exact ((hperm.trans hall).nodup_iff.mpr hn).map_on fun a ha b hb => G.objects a (hmem ha) b (hmem hb)

/-- The classes the encoder computes are interchangeable in the search space it builds. -/
theorem interchangeable_of_classes (G : Grounding P ss) (ht : ¬ ss.isTemporal = true)
    (hn : P.lifted.objects.Nodup) {excluded allObjects : List UPObject}
    (hall : allObjects.Perm P.lifted.objects) {classes : List (List UPObject)}
    (hclasses : P.computeEquivalentObjects excluded allObjects = some classes)
    (hobjects : ss.actionObjects = some actionObjects) {n : ℕ}
    (hprev : ss.objToPrevActionsMap = some (computeObjToPrevActionsMap
      (classes.map (List.map G.objectIds)) actionObjects n))
    (hbound : ∀ o ∈ P.lifted.objects, (G.objectIds o).idx < n)
    (hactions : ∀ g ∈ classes, ∀ x ∈ g, ∀ y ∈ g, x ≠ y →
      ∃ ρ, G.Carries x y ρ ∧ RenamesActions ss relevantActions actionObjects ρ) :
    SearchSpace.Interchangeable ss tn b relevantActions actionObjects
      (classes.map (List.map G.objectIds)) := by
  have hperm := P.computeEquivalentObjects_perm hclasses
  have hnodup := G.nodup_objectIds hn hall hperm
  refine ⟨hnodup, hobjects, ⟨n, hprev, fun o ho => ?_⟩, fun o q hoq => ?_⟩
  · rw [← List.map_flatten] at ho
    obtain ⟨o', ho', rfl⟩ := List.mem_map.mp ho
    exact hbound o' (hall.mem_iff.mp (hperm.mem_iff.mp ho'))
  · obtain ⟨group, hgroup, hq, ho⟩ := exists_group_of_prevEquivalentObject hoq
    obtain ⟨g, hg, rfl⟩ := List.mem_map.mp hgroup
    obtain ⟨x, hx, rfl⟩ := List.mem_map.mp hq
    obtain ⟨y, hy, rfl⟩ := List.mem_map.mp ho
    have hne : x ≠ y := by
      rintro rfl
      exact lt_irrefl _ (idxOf_prevEquivalentObject_lt hnodup hoq)
    obtain ⟨ρ, hρ, ha⟩ := hactions g hg x hx y hy hne
    obtain ⟨classes', hclasses', hrel, -⟩ := P.computeEquivalentObjects_spec excluded hall
    obtain rfl := Option.some.inj (hclasses.symm.trans hclasses')
    have hren := renames hρ ha (hrel g hg x hx y hy)
    refine ⟨ρ.action, fun a => ?_, fun a hqa hoa => ha.fixes a ?_, fun w hw =>
      hren.acceptedWithin ht ha.relevant hw⟩
    · exact (ha.objects a).trans (by rw [hρ.object]; rfl)
    · rw [hρ.object]
      conv_rhs => rw [← List.map_id (actionObjects.getD a.idx [])]
      refine List.map_congr_left fun o ho => Equiv.swap_apply_of_ne_of_ne ?_ ?_
      · rintro rfl
        exact hqa ho
      · rintro rfl
        exact hoa ho

end Grounding

end Grounded

section Lamps

attribute [local instance] Callables.empty

def lamp (name : String) : UPObject := ⟨name, "Lamp"⟩

def lampIsOn (name : String) : FNode := .node (.fluentExp ⟨"on", true⟩) [objectExp (lamp name)]

def lampsDefaults : Dict UPFluent FNode := Dict.singleton ⟨"on", true⟩ (.node (.boolConstant false) [])

/-- Two lamps, both off. -/
noncomputable def lampsLifted : LiftedProblem where
  manager := ExpressionManager.choice
  objects := [lamp "l1", lamp "l2"]
  groundFluents := [lampIsOn "l1", lampIsOn "l2"]
  initialValue := fun e => (Dict.empty.get? e).or (e.fluent?.bind lampsDefaults.get?)
  explicitInitialValues := Dict.empty
  fluentsDefaults := lampsDefaults

theorem lamps_documented : lampsLifted.Documented where
  groundFluents_fluentExp := by
    intro e he
    rcases List.mem_pair.mp he with rfl | rfl
    · exact ⟨_, [objectExp (lamp "l1")], rfl, by decide⟩
    · exact ⟨_, [objectExp (lamp "l2")], rfl, by decide⟩
  groundFluents_rename := by
    intro π hπ e he
    have hmem : ∀ o ∈ [lamp "l1", lamp "l2"],
        FNode.node (.fluentExp ⟨"on", true⟩) [objectExp o] ∈ [lampIsOn "l1", lampIsOn "l2"] := by decide
    rcases List.mem_pair.mp he with rfl | rfl
    · exact hmem _ (hπ (lamp "l1") List.mem_cons_self).1
    · exact hmem _ (hπ (lamp "l2") (List.mem_cons_of_mem _ List.mem_cons_self)).1
  initialValue_eq := fun _ _ => rfl

theorem lamps_complete : lampsLifted.Complete where
  toDocumented := lamps_documented
  explicit_mem := by decide +kernel
  explicit_constant := by decide +kernel
  default_constant := by decide +kernel
  initialValue_isSome := by decide +kernel

theorem lamps_created : ∀ g ∈ [lampIsOn "l1", lampIsOn "l2"], Created ExpressionManager.choice g := by
  intro g hg
  rcases List.mem_pair.mp hg with rfl | rfl
  · exact lamps_documented.created _ List.mem_cons_self
  · exact lamps_documented.created _ (List.mem_cons_of_mem _ List.mem_cons_self)

/-- Both are to be on. -/
noncomputable def lampsProblem : EncodedProblem where
  manager := ExpressionManager.choice
  goals := [lampIsOn "l1", lampIsOn "l2"]
  lifted := lampsLifted
  goals_created := lamps_created
  complete := lamps_complete

theorem compute_lamps : lampsProblem.computeEquivalentObjects [] [lamp "l1", lamp "l2"] =
    some [[lamp "l1", lamp "l2"]] := by
  decide +kernel

/-- Turns a lamp on that is off. -/
def turnOn (i : ℕ) : Option Duration × List (Timing × Event) :=
  (none, [(⟨true, 0⟩, ⟨⟨i⟩, 0, [.fluent ⟨i⟩, .operator .not [0]], [], [],
    [⟨⟨i⟩, [.constant (.bool true)]⟩]⟩)])

def lampObjects : List (List Object) := [[⟨0⟩], [⟨1⟩]]

/-- The search space of the two lamps, with symmetry breaking. -/
def lamps : SearchSpace :=
  { SearchSpace.ofTable [turnOn 0, turnOn 1] [.bool false, .bool false]
      [.fluent ⟨0⟩, .fluent ⟨1⟩, .operator .and [0, 1]] with
    actionObjects := some lampObjects
    objToPrevActionsMap := some (computeObjToPrevActionsMap [[⟨0⟩, ⟨1⟩]] lampObjects 2) }

def lampFluentIds (e : FNode) : Option Fluent :=
  if e = lampIsOn "l1" then some ⟨0⟩ else if e = lampIsOn "l2" then some ⟨1⟩ else none

theorem mem_lampConjuncts {c : FNode} (hc : c ∈ lampsProblem.conjuncts) :
    c = lampIsOn "l1" ∨ c = lampIsOn "l2" := List.mem_pair.mp hc

theorem lamps_goal (A : Assignments) : holds lamps.goal A = true ↔
    ∀ c ∈ lampsProblem.conjuncts, ∃ f, lampFluentIds c = some f ∧ holds [.fluent f] A = true := by
  have hconj : lampsProblem.conjuncts = [lampIsOn "l1", lampIsOn "l2"] := rfl
  have hgoal : lamps.goal = [.fluent ⟨0⟩, .fluent ⟨1⟩, .operator .and [0, 1]] := rfl
  have h₁ : lampFluentIds (lampIsOn "l1") = some ⟨0⟩ := by decide
  have h₂ : lampFluentIds (lampIsOn "l2") = some ⟨1⟩ := by decide
  rw [hconj, hgoal]
  simp only [List.forall_mem_cons, List.not_mem_nil, IsEmpty.forall_iff, implies_true, and_true, h₁,
    h₂, Option.some.injEq, exists_eq_left']
  cases hv : getValue A ⟨0⟩ with
  | none => simp [holds, evaluate, evalNodes, evalNode, hv]
  | some v =>
    cases hw : getValue A ⟨1⟩ with
    | none => simp [holds, evaluate, evalNodes, evalNode, hv, hw]
    | some w =>
      have hbool : ∀ b, (ConstantNode.bool b).truthy = b := fun _ => rfl
      cases htv : v.truthy <;> cases htw : w.truthy <;>
        simp [holds, evaluate, evalNodes, evalNode, evalOperator, evalAnd, hv, hw, htv, htw, hbool]

theorem lamps_fluents {f : Fluent} {v : ConstantNode} (h : getValue lamps.initialState f = some v) :
    ∃ e ∈ lampsLifted.groundFluents, lampFluentIds e = some f := by
  rcases f with ⟨_ | _ | i⟩
  · exact ⟨_, List.mem_cons_self, by decide⟩
  · exact ⟨lampIsOn "l2", List.mem_cons_of_mem _ List.mem_cons_self, by decide⟩
  · cases h

theorem lamps_assigns {e v : FNode} (h : lampsLifted.Assigns e v) :
    (e = lampIsOn "l1" ∨ e = lampIsOn "l2") ∧ v = .node (.boolConstant false) [] := by
  obtain ⟨he, hv⟩ := h
  rcases List.mem_pair.mp he with rfl | rfl
  · exact ⟨.inl rfl, (Option.some.inj hv).symm⟩
  · exact ⟨.inr rfl, (Option.some.inj hv).symm⟩

theorem lamps_initialState {e v : FNode} {f : Fluent} (h : lampsLifted.Assigns e v)
    (hf : lampFluentIds e = some f) : getValue lamps.initialState f =
      some (.bool (v.kind = .boolConstant true)) := by
  obtain ⟨he, rfl⟩ := lamps_assigns h
  rcases he with rfl | rfl
  · obtain rfl : (⟨0⟩ : Fluent) = f := Option.some.inj hf
    rfl
  · obtain rfl : (⟨1⟩ : Fluent) = f := Option.some.inj (Eq.trans (by decide) hf)
    rfl

noncomputable def lampsGrounding : Grounding lampsProblem lamps where
  fluentIds := lampFluentIds
  objectIds := fun o => if o = lamp "l1" then ⟨0⟩ else ⟨1⟩
  value := fun e => .bool (e.kind = .boolConstant true)
  reads := fun c A => ∃ f, lampFluentIds c = some f ∧ holds [.fluent f] A = true
  fluents := lamps_fluents
  objects := by decide
  initialState := lamps_initialState
  goal := lamps_goal

def lampsRenaming : Renaming where
  fluent := Equiv.swap ⟨0⟩ ⟨1⟩
  object := Equiv.swap ⟨0⟩ ⟨1⟩
  action := Equiv.swap ⟨0⟩ ⟨1⟩

theorem lamps_events {a : Action} {le : List (Timing × Event)} (h : lamps.events a = some le) :
    a = ⟨0⟩ ∨ a = ⟨1⟩ := by
  rcases a with ⟨_ | _ | i⟩
  · exact .inl rfl
  · exact .inr rfl
  · cases h

theorem lampsRenaming_action (i : ℕ) : lampsRenaming.action ⟨i + 2⟩ = ⟨i + 2⟩ :=
  Equiv.swap_apply_of_ne_of_ne (by simp) (by simp)

theorem lampsRenaming_ofEvent {i j : ℕ} (hij : lampsRenaming.fluent ⟨i⟩ = ⟨j⟩) {p q : ℕ} {a c : Action} :
    lampsRenaming.OfEvent ⟨a, p, [.fluent ⟨i⟩, .operator .not [0]], [], [], [⟨⟨i⟩, [.constant (.bool true)]⟩]⟩
      ⟨c, q, [.fluent ⟨j⟩, .operator .not [0]], [], [], [⟨⟨j⟩, [.constant (.bool true)]⟩]⟩ where
  conditions := by
    intro A B hr h
    have hexp : lampsRenaming.expression [.fluent ⟨i⟩, .operator .not [0]] =
        [.fluent ⟨j⟩, .operator .not [0]] := by
      rw [← hij]
      rfl
    have hkeeps : lampsRenaming.KeepsCallables := fun _ _ => rfl
    rw [← hexp, Renaming.holds_expression hkeeps hr]
    exact h
  effects := by
    rw [← hij]
    rfl
  endConditions := fun _ => rfl

theorem lamps_renamesActions :
    Grounding.RenamesActions lamps [⟨0⟩, ⟨1⟩] lampObjects lampsRenaming where
  callables := fun _ _ => rfl
  events := by
    intro a le te h hte
    rcases lamps_events h with rfl | rfl
    · obtain rfl := Option.some.inj h
      obtain rfl := Option.some.inj hte
      exact ⟨_, _, rfl, rfl, lampsRenaming_ofEvent rfl⟩
    · obtain rfl := Option.some.inj h
      obtain rfl := Option.some.inj hte
      exact ⟨_, _, rfl, rfl, lampsRenaming_ofEvent rfl⟩
  objects := by
    rintro ⟨_ | _ | i⟩
    · rfl
    · rfl
    · rw [lampsRenaming_action i]
      rfl
  fixes := by
    rintro ⟨_ | _ | i⟩ h
    · exact absurd h (by decide)
    · exact absurd h (by decide)
    · exact lampsRenaming_action i
  relevant := by decide

theorem lamps_swapped : (lampIsOn "l1").rename (Equiv.swap (lamp "l1") (lamp "l2")) = lampIsOn "l2" ∧
    (lampIsOn "l2").rename (Equiv.swap (lamp "l1") (lamp "l2")) = lampIsOn "l1" := by
  decide

theorem lamps_not_reordered : ¬ FNode.Reordered (lampIsOn "l1") (lampIsOn "l2") := by
  intro h
  have hperm := List.singleton_perm_singleton.mp h.extractObjects_perm
  exact absurd hperm (by decide)

theorem lamps_reads {i j : ℕ} (hij : lampsRenaming.fluent ⟨i⟩ = ⟨j⟩) {c d : FNode}
    (hc : lampFluentIds c = some ⟨i⟩) (hd : lampFluentIds d = some ⟨j⟩) {A B : Assignments}
    (hr : lampsRenaming.Related A B) (h : lampsGrounding.reads c A) : lampsGrounding.reads d B := by
  obtain ⟨f, hf, hA⟩ := h
  obtain rfl := Option.some.inj (hc.symm.trans hf)
  refine ⟨⟨j⟩, hd, ?_⟩
  have hkeeps : lampsRenaming.KeepsCallables := fun _ _ => rfl
  have hexp : lampsRenaming.expression [.fluent ⟨i⟩] = [.fluent ⟨j⟩] := by
    rw [← hij]
    rfl
  rw [← hexp, Renaming.holds_expression hkeeps hr]
  exact hA

theorem lamps_carries : lampsGrounding.Carries (lamp "l1") (lamp "l2") lampsRenaming where
  object := congrArg₂ Equiv.swap (by decide) (by decide)
  involutive := Equiv.congr_fun (Equiv.swap_swap _ _)
  fluentIds := by
    intro e f he hf
    rcases List.mem_pair.mp he with rfl | rfl
    · obtain rfl : (⟨0⟩ : Fluent) = f := Option.some.inj hf
      rw [lamps_swapped.1]
      rfl
    · obtain rfl : (⟨1⟩ : Fluent) = f := Option.some.inj (Eq.trans (by decide) hf)
      rw [lamps_swapped.2]
      rfl
  value := by
    intro e v h
    obtain ⟨-, rfl⟩ := lamps_assigns h
    rfl
  reads := by
    intro c d A B hc hd hcd hr h
    rcases mem_lampConjuncts hc with rfl | rfl
    · rw [lamps_swapped.1] at hcd
      rcases mem_lampConjuncts hd with rfl | rfl
      · exact absurd hcd.symm lamps_not_reordered
      · exact lamps_reads (i := 0) (j := 1) (by decide) (by decide) (by decide) hr h
    · rw [lamps_swapped.2] at hcd
      rcases mem_lampConjuncts hd with rfl | rfl
      · exact lamps_reads (i := 1) (j := 0) (by decide) (by decide) (by decide) hr h
      · exact absurd hcd lamps_not_reordered

theorem lamps_interchangeable (tn : DeltaSimpleTemporalNetwork) (b : Bool) :
    SearchSpace.Interchangeable lamps tn b [⟨0⟩, ⟨1⟩] lampObjects [[⟨0⟩, ⟨1⟩]] :=
  lampsGrounding.interchangeable_of_classes (by decide) (by decide) (List.Perm.refl _) compute_lamps rfl
    rfl (by decide) (by
      intro g hg x hx y hy hne
      obtain rfl := List.mem_singleton.mp hg
      rcases List.mem_pair.mp hx with rfl | rfl
      · rcases List.mem_pair.mp hy with rfl | rfl
        · exact absurd rfl hne
        · exact ⟨_, lamps_carries, lamps_renamesActions⟩
      · rcases List.mem_pair.mp hy with rfl | rfl
        · exact ⟨_, lamps_carries.symm, lamps_renamesActions⟩
        · exact absurd rfl hne)

theorem lamps_symmetrySound (tn : DeltaSimpleTemporalNetwork) (b : Bool) :
    SymmetrySound lamps tn b [⟨0⟩, ⟨1⟩] :=
  .inr (.inr ⟨_, _, lamps_interchangeable tn b⟩)

/-- The second lamp is not turned on before the first. -/
example : lamps.symmetryAllowsOpening [] ⟨1⟩ = false ∧ lamps.symmetryAllowsOpening [⟨0⟩] ⟨1⟩ = true :=
  ⟨rfl, rfl⟩

theorem lamps_assignments (as : List Action) {A B : Assignments} (hrel : ∀ a ∈ as, a ∈ [⟨0⟩, ⟨1⟩])
    (hA : ∃ x y : Bool, A = [.bool x, .bool y]) (h : lamps.applyAll A as = some B) :
    ∃ x y : Bool, B = [.bool x, .bool y] := by
  induction as generalizing A with
  | nil => exact Option.some.inj h ▸ hA
  | cons a as ih =>
    obtain ⟨A', hA', hrest⟩ := applyAll_cons.mp h
    refine ih (fun x hx => hrel x (List.mem_cons_of_mem _ hx)) ?_ hrest
    obtain ⟨x, y, rfl⟩ := hA
    rcases List.mem_pair.mp (hrel a List.mem_cons_self) with rfl | rfl
    · cases x with
      | false => exact ⟨true, y, (Option.some.inj hA').symm⟩
      | true => cases hA'
    · cases y with
      | false => exact ⟨x, true, (Option.some.inj hA').symm⟩
      | true => cases hA'

theorem lamps_finite (tn : DeltaSimpleTemporalNetwork) : FinitelyManyStates lamps tn [⟨0⟩, ⟨1⟩] := by
  refine Set.Finite.subset (Set.finite_range fun p : Bool × Bool => [.bool p.1, .bool p.2]) ?_
  rintro A ⟨s, d, hs, rfl⟩
  obtain ⟨hall, hrel⟩ := hs.path (by decide)
  obtain ⟨x, y, hxy⟩ := lamps_assignments _ hrel ⟨false, false, rfl⟩ hall
  exact ⟨(x, y), hxy.symm⟩

end Lamps

end TamerLite
