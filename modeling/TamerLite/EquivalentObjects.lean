import Mathlib.Data.List.Dedup
import Mathlib.Data.List.Sections
import Mathlib.GroupTheory.Perm.ClosureSwap
import TamerLite.Canonicalizer
import TamerLite.Representatives

/-! The classes of interchangeable objects. Objects are compared with one representative of a
class, within one signature, on the initial values that are not defaults. -/

namespace TamerLite

open FNode CommutativeCanonicalizer

namespace FNode

/-- `fluent` of a fluent expression. -/
def fluent? : FNode → Option UPFluent
  | node (.fluentExp f) _ => some f
  | _ => none

end FNode

/-- What is read of the lifted problem. Its ground fluents and their initial values are the
planning library's. -/
structure LiftedProblem where
  manager : ExpressionManager
  objects : List UPObject
  groundFluents : List FNode
  initialValue : FNode → Option FNode
  explicitInitialValues : Dict FNode FNode
  fluentsDefaults : Dict UPFluent FNode

namespace LiftedProblem

variable (p : LiftedProblem)

/-- A renaming that keeps the objects and their types. -/
def Respects (π : Equiv.Perm UPObject) : Prop :=
  ∀ o ∈ p.objects, π o ∈ p.objects ∧ (π o).type = o.type

/-- What the planning library says of them. A ground fluent has constants for its parameters, any
objects of their types among them, and its value is the explicit one or else the fluent's default. -/
structure Documented : Prop where
  groundFluents_fluentExp : ∀ e ∈ p.groundFluents, ∃ f args, e = .node (.fluentExp f) args ∧
    ∀ arg ∈ args, arg.isConstant = true
  groundFluents_rename : ∀ π, p.Respects π → ∀ e ∈ p.groundFluents, e.rename π ∈ p.groundFluents
  initialValue_eq : ∀ e ∈ p.groundFluents, p.initialValue e =
    (p.explicitInitialValues.get? e).or (e.fluent?.bind p.fluentsDefaults.get?)

def initialValues : Option (List (FNode × FNode)) :=
  p.groundFluents.mapM fun fluentExp => (p.initialValue fluentExp).map (fluentExp, ·)

/-- The explicit values that are not the default of their fluent. -/
def explicitAssignments : List (FNode × FNode) :=
  p.explicitInitialValues.entries.filter fun q =>
    q.1.fluent?.bind p.fluentsDefaults.get? ≠ some q.2

def defaultObjects : List UPObject := p.fluentsDefaults.entries.filterMap fun q => q.2.object?

/-- Values are constants, and every ground fluent has one. -/
structure Complete : Prop extends p.Documented where
  explicit_mem : ∀ q ∈ p.explicitInitialValues.entries, q.1 ∈ p.groundFluents
  explicit_constant : ∀ q ∈ p.explicitInitialValues.entries, q.2.isConstant = true
  default_constant : ∀ q ∈ p.fluentsDefaults.entries, q.2.isConstant = true
  initialValue_isSome : ∀ fluentExp ∈ p.groundFluents, (p.initialValue fluentExp).isSome = true

/-- The complete initial state. -/
def Assigns (fluentExp valueExp : FNode) : Prop :=
  fluentExp ∈ p.groundFluents ∧ p.initialValue fluentExp = some valueExp

/-- The second half of `_are_equivalent_objects`, with the substitution. -/
def keepsAssignments (substitute : FNode → FNode) :
    List FNode → List (FNode × FNode) → Option Bool
  | _, [] => some true
  | seenFluentExps, q :: assignments =>
    if q.1 ∈ seenFluentExps then keepsAssignments substitute seenFluentExps assignments
    else do
      let initialValue ← p.initialValue (substitute q.1)
      if initialValue ≠ substitute q.2 then return false
      keepsAssignments substitute (q.1 :: seenFluentExps) assignments

end LiftedProblem

def assignmentObjects (q : FNode × FNode) : List UPObject :=
  (q.1.args.filterMap object? ++ q.2.object?.toList).dedup

def computeObjToAssignmentsMap (assignments : List (FNode × FNode)) :
    Dict UPObject (List (FNode × FNode)) := Dict.index assignmentObjects assignments

def computeObjToConjunctsMap (goal : List FNode) : Dict UPObject (List FNode) :=
  Dict.index (fun c => (extractObjects c).dedup) goal

/-- An expression with the object itself as `self` and any other as its type. -/
inductive AbstractExp
  | self
  | type (name : String)
  | exp (e : FNode)
deriving DecidableEq

inductive Feature
  | assignment (fluent : Option String) (args : List AbstractExp) (value : AbstractExp)
  | conjunct (fluents : List String)
deriving DecidableEq

def abstractExp (obj : UPObject) (e : FNode) : AbstractExp :=
  match e.object? with
  | some other => if other = obj then .self else .type other.type
  | none => .exp e

def assignmentFeature (obj : UPObject) (q : FNode × FNode) : Feature :=
  .assignment (q.1.fluent?.map UPFluent.name) (q.1.args.map (abstractExp obj)) (abstractExp obj q.2)

def conjunctFeature (c : FNode) : Feature :=
  .conjunct (((extractFluents c).map UPFluent.name).insertionSort (· ≤ ·))

/-- How often each feature appears. -/
def objectSignature (obj : UPObject) (objToInitAssignments : Dict UPObject (List (FNode × FNode)))
    (objToConjuncts : Dict UPObject (List FNode)) : Multiset Feature :=
  ((objToInitAssignments.get? obj).getD []).map (assignmentFeature obj) ++
    ((objToConjuncts.get? obj).getD []).map conjunctFeature

/-- The goals of the problem and the problem they were ground from. -/
structure EncodedProblem where
  manager : ExpressionManager
  goals : List FNode
  lifted : LiftedProblem
  goals_created : ∀ g ∈ goals, Created manager g
  complete : lifted.Complete

namespace EncodedProblem

variable (P : EncodedProblem)

def conjuncts : List FNode := extractAndArguments P.goals

/-- The distinct conjuncts in canonical form. -/
def goal : List FNode := (P.conjuncts.map (walk P.manager)).dedup

def areEquivalentObjects (obj1 obj2 : UPObject) (goal : List FNode)
    (objToConjuncts : Dict UPObject (List FNode))
    (objToInitAssignments : Dict UPObject (List (FNode × FNode))) : Option Bool :=
  let swapGoal := P.manager.substitute (swapObjects obj1 obj2)
  let swapInit := P.lifted.manager.substitute (swapObjects obj1 obj2)
  if ((objToConjuncts.get? obj1).getD [] ++ (objToConjuncts.get? obj2).getD []).all
      fun c => walk P.manager (swapGoal c) ∈ goal then
    P.lifted.keepsAssignments swapInit []
      ((objToInitAssignments.get? obj1).getD [] ++ (objToInitAssignments.get? obj2).getD [])
  else some false

/-- The comparison of an object with a representative. -/
def compareObjects (representative obj : UPObject) : Option Bool := do
  let initAssignments ←
    if representative ∈ P.lifted.defaultObjects ∨ obj ∈ P.lifted.defaultObjects then
      P.lifted.initialValues.map computeObjToAssignmentsMap
    else some (computeObjToAssignmentsMap P.lifted.explicitAssignments)
  P.areEquivalentObjects representative obj P.goal
    (computeObjToConjunctsMap P.goal) initAssignments

def signatureOf (objs : List UPObject) (obj : UPObject) : Option (Multiset Feature) :=
  if objs.any (· ∈ P.lifted.defaultObjects) then none
  else some (objectSignature obj (computeObjToAssignmentsMap P.lifted.explicitAssignments)
    (computeObjToConjunctsMap P.goal))

def computeEquivalentObjects (excluded allObjects : List UPObject) :
    Option (List (List UPObject)) := do
  let objects := Dict.index (fun o : UPObject => [o.type]) allObjects
  let groups ← objects.entries.foldlM (fun groups q =>
    Representatives.sort (fun obj => decide (obj ∈ excluded)) (P.signatureOf q.2)
      (P.compareObjects) groups q.2) []
  return groups.map (List.insertionSort fun o o' => o.name ≤ o'.name)

end EncodedProblem

/-! ### Interchangeable objects -/

def SameUpToReordering (cs ds : List FNode) : Prop :=
  (∀ c ∈ cs, ∃ d ∈ ds, Reordered c d) ∧ ∀ d ∈ ds, ∃ c ∈ cs, Reordered c d

namespace EncodedProblem

variable (P : EncodedProblem)

/-- Renaming leaves the goal's conjuncts and the complete initial state unchanged. -/
structure Preserved (π : Equiv.Perm UPObject) : Prop where
  conjuncts : SameUpToReordering (P.conjuncts.map (rename π)) P.conjuncts
  initialState : ∀ fluentExp valueExp, P.lifted.Assigns (fluentExp.rename π) (valueExp.rename π) ↔
    P.lifted.Assigns fluentExp valueExp

/-- Swapping the two objects everywhere changes nothing. -/
def Interchangeable (a b : UPObject) : Prop := P.Preserved (Equiv.swap a b)

end EncodedProblem

section Preserved

variable {P : EncodedProblem} {π ρ : Equiv.Perm UPObject} {a b c : UPObject}

theorem EncodedProblem.preserved_one : P.Preserved 1 where
  conjuncts := by
    rw [show P.conjuncts.map (rename (1 : Equiv.Perm UPObject)) = P.conjuncts from
      (List.map_congr_left fun c _ => rename_id c).trans (List.map_id _)]
    exact ⟨fun c hc => ⟨c, hc, .refl c⟩, fun c hc => ⟨c, hc, .refl c⟩⟩
  initialState := fun fluentExp valueExp => by
    rw [show fluentExp.rename (1 : Equiv.Perm UPObject) = fluentExp from rename_id _,
      show valueExp.rename (1 : Equiv.Perm UPObject) = valueExp from rename_id _]

theorem EncodedProblem.Preserved.mul (h : P.Preserved π) (h' : P.Preserved ρ) : P.Preserved (π * ρ) := by
  have hrename : ∀ e : FNode, e.rename (π * ρ : Equiv.Perm UPObject) = (e.rename ρ).rename π :=
    fun e => (rename_rename π ρ e).symm
  refine ⟨⟨fun c hc => ?_, fun d hd => ?_⟩, fun fluentExp valueExp => ?_⟩
  · obtain ⟨e, he, rfl⟩ := List.mem_map.mp hc
    obtain ⟨e', he', hr⟩ := h'.conjuncts.1 _ (List.mem_map_of_mem he)
    obtain ⟨e'', he'', hr'⟩ := h.conjuncts.1 _ (List.mem_map_of_mem he')
    rw [hrename]
    exact ⟨e'', he'', (hr.rename π).trans hr'⟩
  · obtain ⟨c, hc, hr⟩ := h.conjuncts.2 d hd
    obtain ⟨e, he, rfl⟩ := List.mem_map.mp hc
    obtain ⟨c', hc', hr'⟩ := h'.conjuncts.2 e he
    obtain ⟨e', he', rfl⟩ := List.mem_map.mp hc'
    refine ⟨_, List.mem_map_of_mem he', ?_⟩
    rw [hrename]
    exact (hr'.rename π).trans hr
  · rw [hrename, hrename, h.initialState, h'.initialState]

/-- The permutations that leave the problem unchanged. -/
def EncodedProblem.symmetries (P : EncodedProblem) : Submonoid (Equiv.Perm UPObject) where
  carrier := { π | P.Preserved π }
  one_mem' := EncodedProblem.preserved_one
  mul_mem' := EncodedProblem.Preserved.mul

theorem EncodedProblem.interchangeable_equivalence (P : EncodedProblem) :
    Equivalence P.Interchangeable where
  refl := fun a => by
    rw [EncodedProblem.Interchangeable, Equiv.swap_self]
    exact EncodedProblem.preserved_one
  symm := fun h => by
    rw [EncodedProblem.Interchangeable, Equiv.swap_comm]
    exact h
  trans := fun h h' => SubmonoidClass.swap_mem_trans P.symmetries h h'

end Preserved

/-! ### Constants and ground fluents -/

theorem FNode.created_of_isConstant {m : ExpressionManager} {e : FNode} (h : e.isConstant = true) :
    Created m e := by
  unfold isConstant at h
  split at h
  case h_5 => cases h
  all_goals exact .node (m.createNode_constant rfl []) fun _ he => absurd he List.not_mem_nil

theorem FNode.object?_rename (f : UPObject → UPObject) (e : FNode) :
    (e.rename f).object? = e.object?.map f := by
  obtain ⟨kind, args⟩ := e
  rw [rename_node]
  cases kind <;> rfl

theorem FNode.fluent?_rename (f : UPObject → UPObject) (e : FNode) :
    (e.rename f).fluent? = e.fluent? := by
  obtain ⟨kind, args⟩ := e
  rw [rename_node]
  cases kind <;> rfl

theorem FNode.args_rename (f : UPObject → UPObject) (e : FNode) :
    (e.rename f).args = e.args.map (rename f) := by
  obtain ⟨kind, args⟩ := e
  rw [rename_node]
  rfl

theorem FNode.rename_constant {f : UPObject → UPObject} {e : FNode} (h : e.isConstant = true)
    (hf : ∀ o, e.object? = some o → f o = o) : e.rename f = e := by
  unfold isConstant at h
  split at h
  · rw [rename_node, NodeKind.rename, hf _ rfl]
    rfl
  · rfl
  · rfl
  · rfl
  · cases h

namespace LiftedProblem

variable {p : LiftedProblem} {π : Equiv.Perm UPObject} {a b : UPObject} {e fluentExp valueExp : FNode}

theorem respects_swap (ha : a ∈ p.objects) (hb : b ∈ p.objects) (ht : a.type = b.type) :
    p.Respects (Equiv.swap a b) := by
  intro o ho
  rw [Equiv.swap_apply_def]
  split_ifs with hoa hob
  · exact ⟨hb, by rw [hoa, ht]⟩
  · exact ⟨ha, by rw [hob, ht]⟩
  · exact ⟨ho, rfl⟩

/-- The arguments of a ground fluent are constants. -/
theorem Documented.isConstant_of_mem_args (hd : p.Documented) (h : fluentExp ∈ p.groundFluents)
    (he : e ∈ fluentExp.args) : e.isConstant = true := by
  obtain ⟨f, args, rfl, hargs⟩ := hd.groundFluents_fluentExp _ h
  exact hargs e he

theorem Documented.created (hd : p.Documented) (m : ExpressionManager)
    (h : fluentExp ∈ p.groundFluents) : Created m fluentExp := by
  obtain ⟨f, args, rfl, hargs⟩ := hd.groundFluents_fluentExp _ h
  exact .node (m.createNode_fluentExp f args) fun e he => created_of_isConstant (hargs e he)

theorem Documented.swap_mem (hd : p.Documented) (ha : a ∈ p.objects) (hb : b ∈ p.objects)
    (ht : a.type = b.type) (h : fluentExp ∈ p.groundFluents) :
    fluentExp.rename (Equiv.swap a b) ∈ p.groundFluents :=
  hd.groundFluents_rename _ (respects_swap ha hb ht) _ h

theorem Complete.assigns (hc : p.Complete) (h : fluentExp ∈ p.groundFluents) :
    ∃ valueExp, p.Assigns fluentExp valueExp := by
  obtain ⟨valueExp, hv⟩ := Option.isSome_iff_exists.mp (hc.initialValue_isSome fluentExp h)
  exact ⟨valueExp, h, hv⟩

theorem Complete.isConstant (hc : p.Complete) (hv : p.Assigns fluentExp valueExp) :
    valueExp.isConstant = true := by
  obtain ⟨hg, h⟩ := hv
  rw [hc.initialValue_eq _ hg, Option.or_eq_some_iff] at h
  rcases h with h | ⟨-, h⟩
  · exact hc.explicit_constant _ (Dict.get?_eq_some_iff.mp h)
  · obtain ⟨f, -, hd⟩ := Option.bind_eq_some_iff.mp h
    exact hc.default_constant _ (Dict.get?_eq_some_iff.mp hd)

/-! ### Assignments the swap leaves alone -/

theorem mem_assignmentObjects {q : FNode × FNode} {o : UPObject} :
    o ∈ assignmentObjects q ↔ (∃ e ∈ q.1.args, e.object? = some o) ∨ q.2.object? = some o := by
  simp [assignmentObjects]

theorem assignmentObjects_rename (π : Equiv.Perm UPObject) (q : FNode × FNode) (o : UPObject) :
    π o ∈ assignmentObjects (q.1.rename π, q.2.rename π) ↔ o ∈ assignmentObjects q := by
  have hobj : ∀ e : FNode, (e.rename π).object? = some (π o) ↔ e.object? = some o := by
    intro e
    rw [object?_rename, Option.map_eq_some_iff]
    simp
  simp only [mem_assignmentObjects, args_rename, List.mem_map, exists_exists_and_eq_and, hobj]

theorem Documented.rename_swap_eq_self (hd : p.Documented) (h : fluentExp ∈ p.groundFluents)
    (hv : valueExp.isConstant = true)
    (ha : a ∉ assignmentObjects (fluentExp, valueExp))
    (hb : b ∉ assignmentObjects (fluentExp, valueExp)) :
    fluentExp.rename (Equiv.swap a b) = fluentExp ∧ valueExp.rename (Equiv.swap a b) = valueExp := by
  have hkeep : ∀ o, o ∈ assignmentObjects (fluentExp, valueExp) → Equiv.swap a b o = o := by
    intro o ho
    refine Equiv.swap_apply_of_ne_of_ne ?_ ?_
    · rintro rfl
      exact ha ho
    · rintro rfl
      exact hb ho
  constructor
  · have hargs : fluentExp.args.map (rename (Equiv.swap a b)) = fluentExp.args := by
      conv_rhs => rw [← List.map_id fluentExp.args]
      refine List.map_congr_left fun e he => rename_constant (hd.isConstant_of_mem_args h he) fun o ho => ?_
      exact hkeep o (mem_assignmentObjects.mpr (.inl ⟨e, he, ho⟩))
    obtain ⟨f, args, rfl, -⟩ := hd.groundFluents_fluentExp _ h
    rw [rename_node]
    exact congrArg _ hargs
  · exact rename_constant hv fun o ho => hkeep o (mem_assignmentObjects.mpr (.inr ho))

theorem rename_swap_swap (a b : UPObject) (e : FNode) :
    (e.rename (Equiv.swap a b)).rename (Equiv.swap a b) = e := by
  rw [rename_rename, ← Equiv.Perm.coe_mul, Equiv.swap_mul_self]
  exact rename_id e

/-- Swapping leaves the complete initial state unchanged. -/
def KeepsState (p : LiftedProblem) (a b : UPObject) : Prop := ∀ fluentExp valueExp,
  p.Assigns (fluentExp.rename (Equiv.swap a b)) (valueExp.rename (Equiv.swap a b)) ↔
    p.Assigns fluentExp valueExp

theorem Documented.keepsState_iff (hd : p.Documented) (ha : a ∈ p.objects) (hb : b ∈ p.objects)
    (ht : a.type = b.type) :
    p.KeepsState a b ↔ ∀ fluentExp valueExp, p.Assigns fluentExp valueExp →
      p.initialValue (fluentExp.rename (Equiv.swap a b)) = some (valueExp.rename (Equiv.swap a b)) := by
  constructor
  · intro h fluentExp valueExp hv
    exact ((h fluentExp valueExp).mpr hv).2
  · intro h
    have hstep : ∀ fluentExp valueExp, p.Assigns fluentExp valueExp →
        p.Assigns (fluentExp.rename (Equiv.swap a b)) (valueExp.rename (Equiv.swap a b)) :=
      fun fluentExp valueExp hv =>
        ⟨hd.swap_mem ha hb ht hv.1, h _ _ hv⟩
    refine fun fluentExp valueExp => ⟨fun hv => ?_, hstep _ _⟩
    have hback := hstep _ _ hv
    rwa [rename_swap_swap, rename_swap_swap] at hback

/-- The assignments that mention one of the two objects, swapped, are assignments again. -/
def KeepsAssignments (p : LiftedProblem) (assignments : List (FNode × FNode)) (a b : UPObject) : Prop :=
  ∀ q ∈ assignments, a ∈ assignmentObjects q ∨ b ∈ assignmentObjects q →
    p.initialValue (q.1.rename (Equiv.swap a b)) = some (q.2.rename (Equiv.swap a b))

theorem keepsState_iff_of_forall (hc : p.Complete) (ha : a ∈ p.objects) (hb : b ∈ p.objects)
    (ht : a.type = b.type) {assignments : List (FNode × FNode)}
    (hall : ∀ q, q ∈ assignments ↔ p.Assigns q.1 q.2) :
    p.KeepsState a b ↔ p.KeepsAssignments assignments a b := by
  rw [hc.keepsState_iff ha hb ht]
  constructor
  · intro h q hq _
    exact h _ _ ((hall q).mp hq)
  · intro h fluentExp valueExp hv
    by_cases hm : a ∈ assignmentObjects (fluentExp, valueExp) ∨ b ∈ assignmentObjects (fluentExp, valueExp)
    · exact h (fluentExp, valueExp) ((hall _).mpr hv) hm
    · rw [not_or] at hm
      obtain ⟨hf, hval⟩ := hc.rename_swap_eq_self hv.1 (hc.isConstant hv) hm.1 hm.2
      rw [hf, hval]
      exact hv.2

theorem mem_explicitAssignments {q : FNode × FNode} (hc : p.Complete) : q ∈ p.explicitAssignments ↔
    p.Assigns q.1 q.2 ∧ q.1.fluent?.bind p.fluentsDefaults.get? ≠ some q.2 := by
  obtain ⟨fluentExp, valueExp⟩ := q
  simp only [explicitAssignments, List.mem_filter, decide_eq_true_eq, ← Dict.get?_eq_some_iff]
  refine and_congr_left fun hne => ?_
  constructor
  · intro hq
    have hg := hc.explicit_mem _ (Dict.get?_eq_some_iff.mp hq)
    refine ⟨hg, ?_⟩
    rw [hc.initialValue_eq _ hg, Option.or_eq_some_iff]
    exact .inl hq
  · rintro ⟨hg, hv⟩
    rw [hc.initialValue_eq _ hg, Option.or_eq_some_iff] at hv
    rcases hv with hq | ⟨-, hd⟩
    · exact hq
    · exact absurd hd hne

/-- An object that is no default does not occur in a default. -/
theorem rename_default (hc : p.Complete) (ha : a ∉ p.defaultObjects) (hb : b ∉ p.defaultObjects)
    {f : UPFluent} {d : FNode} (hd : p.fluentsDefaults.get? f = some d) :
    d.rename (Equiv.swap a b) = d := by
  have hmem := Dict.get?_eq_some_iff.mp hd
  refine rename_constant (hc.default_constant _ hmem) fun o ho => ?_
  have hdef : o ∈ p.defaultObjects := List.mem_filterMap.mpr ⟨_, hmem, ho⟩
  refine Equiv.swap_apply_of_ne_of_ne ?_ ?_
  · rintro rfl
    exact ha hdef
  · rintro rfl
    exact hb hdef

/-- Between objects that are no defaults, the explicit values are enough. -/
theorem keepsState_iff_explicit (hc : p.Complete) (ha : a ∈ p.objects) (hb : b ∈ p.objects)
    (ht : a.type = b.type) (had : a ∉ p.defaultObjects) (hbd : b ∉ p.defaultObjects) :
    p.KeepsState a b ↔ p.KeepsAssignments p.explicitAssignments a b := by
  rw [hc.keepsState_iff ha hb ht]
  constructor
  · intro h q hq _
    exact h _ _ ((mem_explicitAssignments hc).mp hq).1
  · intro h
    have hstep : ∀ q ∈ p.explicitAssignments, p.initialValue (q.1.rename (Equiv.swap a b)) =
        some (q.2.rename (Equiv.swap a b)) := by
      intro q hq
      by_cases hm : a ∈ assignmentObjects q ∨ b ∈ assignmentObjects q
      · exact h q hq hm
      · rw [not_or] at hm
        have hv := ((mem_explicitAssignments hc).mp hq).1
        obtain ⟨hf, hval⟩ := hc.rename_swap_eq_self hv.1 (hc.isConstant hv) hm.1 hm.2
        rw [hf, hval]
        exact hv.2
    intro fluentExp valueExp hv
    by_cases hd : fluentExp.fluent?.bind p.fluentsDefaults.get? = some valueExp
    · -- A default: where the swap leads, anything else would have to come back.
      obtain ⟨f, hf, hdef⟩ := Option.bind_eq_some_iff.mp hd
      have hfix := rename_default hc had hbd hdef
      have hmem := hc.swap_mem ha hb ht hv.1
      obtain ⟨valueExp', hv'⟩ := hc.assigns hmem
      by_contra hne
      have hexp : (fluentExp.rename (Equiv.swap a b), valueExp') ∈ p.explicitAssignments := by
        refine (mem_explicitAssignments hc).mpr ⟨hv', ?_⟩
        rw [fluent?_rename, hd]
        intro heq
        apply hne
        rw [hv'.2, hfix, heq]
      have hback := hstep _ hexp
      rw [rename_swap_swap, hv.2, Option.some.injEq] at hback
      apply hne
      rw [hv'.2, Option.some.injEq, ← rename_swap_swap a b valueExp', ← hback]
    · exact hstep (fluentExp, valueExp) ((mem_explicitAssignments hc).mpr ⟨hv, hd⟩)

theorem mem_initialValues (hc : p.Complete) : ∃ assignments, p.initialValues = some assignments ∧
    ∀ q, q ∈ assignments ↔ p.Assigns q.1 q.2 := by
  have hmap : ∀ l : List FNode, (∀ e ∈ l, (p.initialValue e).isSome = true) → ∃ assignments,
      l.mapM (fun e => (p.initialValue e).map (e, ·)) = some assignments ∧
        ∀ q, q ∈ assignments ↔ q.1 ∈ l ∧ p.initialValue q.1 = some q.2 := by
    intro l hl
    induction l with
    | nil => exact ⟨[], rfl, by simp⟩
    | cons e l ih =>
      obtain ⟨v, hv⟩ := Option.isSome_iff_exists.mp (hl e List.mem_cons_self)
      obtain ⟨assignments, has, hiff⟩ := ih fun e he => hl e (List.mem_cons_of_mem _ he)
      refine ⟨(e, v) :: assignments, by rw [List.mapM_cons, hv, has]; rfl, fun q => ?_⟩
      rw [List.mem_cons, hiff, List.mem_cons]
      constructor
      · rintro (rfl | ⟨hm, hq⟩)
        · exact ⟨.inl rfl, hv⟩
        · exact ⟨.inr hm, hq⟩
      · rintro ⟨he | hm, hq⟩
        · rw [he, hv] at hq
          exact .inl (Prod.ext he (Option.some.inj hq).symm)
        · exact .inr ⟨hm, hq⟩
  exact hmap _ hc.initialValue_isSome

theorem keepsAssignments_spec (substitute : FNode → FNode) {assignments : List (FNode × FNode)}
    (hdef : ∀ q ∈ assignments, (p.initialValue (substitute q.1)).isSome = true)
    (hfun : ∀ q ∈ assignments, ∀ q' ∈ assignments, q.1 = q'.1 → q = q') (seen : List FNode) :
    ∃ b, p.keepsAssignments substitute seen assignments = some b ∧ (b = true ↔
      ∀ q ∈ assignments, q.1 ∈ seen ∨ p.initialValue (substitute q.1) = some (substitute q.2)) := by
  induction assignments generalizing seen with
  | nil => exact ⟨true, rfl, by simp⟩
  | cons q assignments ih =>
    have ih' := ih (fun q hq => hdef q (List.mem_cons_of_mem _ hq))
      fun q hq q' hq' => hfun q (List.mem_cons_of_mem _ hq) q' (List.mem_cons_of_mem _ hq')
    rw [keepsAssignments]
    by_cases hseen : q.1 ∈ seen
    · obtain ⟨b, hb, hiff⟩ := ih' seen
      exact ⟨b, by rw [if_pos hseen, hb], by rw [hiff]; simp [hseen]⟩
    · obtain ⟨v, hv⟩ := Option.isSome_iff_exists.mp (hdef q List.mem_cons_self)
      by_cases hval : v = substitute q.2
      · obtain ⟨b, hb, hiff⟩ := ih' (q.1 :: seen)
        refine ⟨b, by simp [hseen, hv, hval, hb], ?_⟩
        have hq : p.initialValue (substitute q.1) = some (substitute q.2) := by rw [hv, hval]
        rw [hiff, List.forall_mem_cons]
        constructor
        · refine fun h => ⟨.inr hq, fun q' hq' => ?_⟩
          rcases h q' hq' with hm | hok
          · rcases List.mem_cons.mp hm with heq | hm
            · rw [hfun q' (List.mem_cons_of_mem _ hq') q List.mem_cons_self heq]
              exact .inr hq
            · exact .inl hm
          · exact .inr hok
        · rintro ⟨-, h⟩ q' hq'
          exact (h q' hq').imp_left (List.mem_cons_of_mem _)
      · refine ⟨false, by simp [hseen, hv, hval], ?_⟩
        simp [hseen, hv, hval]

end LiftedProblem

/-! ### The comparison -/

theorem FNode.Created.of_mem_andArguments {m : ExpressionManager} {e : FNode} (h : Created m e) :
    ∀ c ∈ andArguments e, Created m c := by
  induction h with
  | @node kind args h hargs ih =>
    intro c hc
    rw [andArguments] at hc
    split_ifs at hc with hk
    · obtain ⟨e, he, hc⟩ := mem_extractAndArguments.mp hc
      exact ih e he c hc
    · obtain rfl := List.mem_singleton.mp hc
      exact .node h hargs

namespace EncodedProblem

variable {P : EncodedProblem} {a b : UPObject} {c : FNode}

theorem created_of_mem_conjuncts (hc : c ∈ P.conjuncts) : Created P.manager c := by
  obtain ⟨g, hg, hc⟩ := mem_extractAndArguments.mp hc
  exact (P.goals_created g hg).of_mem_andArguments c hc

theorem mem_goal : c ∈ P.goal ↔ ∃ e ∈ P.conjuncts, walk P.manager e = c := by
  rw [goal, List.mem_dedup, List.mem_map]

theorem created_of_mem_goal (hc : c ∈ P.goal) : Created P.manager c := by
  obtain ⟨e, he, rfl⟩ := mem_goal.mp hc
  exact (walk_spec P.manager (created_of_mem_conjuncts he)).1

/-- The conjuncts that mention one of the two objects, swapped, are conjuncts again. -/
def KeepsGoal (P : EncodedProblem) (a b : UPObject) : Prop :=
  ∀ c ∈ P.goal, a ∈ extractObjects c ∨ b ∈ extractObjects c →
    walk P.manager (c.rename (Equiv.swap a b)) ∈ P.goal

theorem rename_swap_goal (h : P.KeepsGoal a b) (hc : c ∈ P.goal) :
    walk P.manager (c.rename (Equiv.swap a b)) ∈ P.goal := by
  by_cases hm : a ∈ extractObjects c ∨ b ∈ extractObjects c
  · exact h c hc hm
  · rw [not_or] at hm
    have hcreated := created_of_mem_goal hc
    rw [rename_eq_self hcreated]
    · obtain ⟨e, he, rfl⟩ := mem_goal.mp hc
      rw [walk_walk P.manager (created_of_mem_conjuncts he)]
      exact hc
    · intro o ho
      refine Equiv.swap_apply_of_ne_of_ne ?_ ?_
      · rintro rfl
        exact hm.1 ho
      · rintro rfl
        exact hm.2 ho

theorem keepsGoal_iff : P.KeepsGoal a b ↔
    SameUpToReordering (P.conjuncts.map (rename (Equiv.swap a b))) P.conjuncts := by
  constructor
  · intro h
    have hforward : ∀ e ∈ P.conjuncts, ∃ d ∈ P.conjuncts, Reordered (e.rename (Equiv.swap a b)) d := by
      intro e he
      have hcreated := created_of_mem_conjuncts he
      obtain ⟨d, hd, hw⟩ := mem_goal.mp (rename_swap_goal h (mem_goal.mpr ⟨e, he, rfl⟩))
      have hr := (walk_eq_iff P.manager (created_of_mem_conjuncts hd)
        ((walk_spec P.manager hcreated).1.rename _)).mp hw
      exact ⟨d, hd, ((reordered_walk P.manager hcreated).rename _).trans hr.symm⟩
    refine ⟨fun c hc => ?_, fun d hd => ?_⟩
    · obtain ⟨e, he, rfl⟩ := List.mem_map.mp hc
      exact hforward e he
    · obtain ⟨c, hc, hr⟩ := hforward d hd
      refine ⟨_, List.mem_map_of_mem hc, ?_⟩
      have hback := (hr.rename (Equiv.swap a b)).symm
      rwa [LiftedProblem.rename_swap_swap] at hback
  · rintro ⟨h, -⟩ c hc -
    obtain ⟨e, he, rfl⟩ := mem_goal.mp hc
    have hcreated := created_of_mem_conjuncts he
    obtain ⟨d, hd, hr⟩ := h _ (List.mem_map_of_mem he)
    refine mem_goal.mpr ⟨d, hd, ?_⟩
    rw [walk_eq_iff P.manager (created_of_mem_conjuncts hd) ((walk_spec P.manager hcreated).1.rename _)]
    exact hr.symm.trans ((reordered_walk P.manager hcreated).rename _)

theorem interchangeable_iff : P.Interchangeable a b ↔
    P.KeepsGoal a b ∧ P.lifted.KeepsState a b := by
  rw [keepsGoal_iff]
  exact ⟨fun h => ⟨h.conjuncts, h.initialState⟩, fun h => ⟨h.1, h.2⟩⟩

theorem mem_objToConjuncts {goal : List FNode} {o : UPObject} :
    c ∈ ((computeObjToConjunctsMap goal).get? o).getD [] ↔ c ∈ goal ∧ o ∈ extractObjects c := by
  rw [computeObjToConjunctsMap, Dict.getD_index _ fun _ => List.nodup_dedup _]
  simp

theorem mem_objToAssignments {assignments : List (FNode × FNode)} {o : UPObject} {q : FNode × FNode} :
    q ∈ ((computeObjToAssignmentsMap assignments).get? o).getD [] ↔
      q ∈ assignments ∧ o ∈ assignmentObjects q := by
  rw [computeObjToAssignmentsMap, Dict.getD_index assignmentObjects fun _ => List.nodup_dedup _]
  simp

/-- What the comparison of two objects decides, on some of the initial assignments. -/
theorem areEquivalentObjects_spec (ha : a ∈ P.lifted.objects) (hb : b ∈ P.lifted.objects)
    (ht : a.type = b.type) {assignments : List (FNode × FNode)}
    (has : ∀ q ∈ assignments, P.lifted.Assigns q.1 q.2) :
    ∃ r, P.areEquivalentObjects a b P.goal (computeObjToConjunctsMap P.goal)
        (computeObjToAssignmentsMap assignments) = some r ∧
      (r = true ↔ P.KeepsGoal a b ∧ P.lifted.KeepsAssignments assignments a b) := by
  have hgoal : (((computeObjToConjunctsMap P.goal).get? a).getD [] ++
      ((computeObjToConjunctsMap P.goal).get? b).getD []).all
        (fun c => walk P.manager (P.manager.substitute (swapObjects a b) c) ∈ P.goal) = true ↔
      P.KeepsGoal a b := by
    simp only [List.all_eq_true, List.mem_append, mem_objToConjuncts, decide_eq_true_eq, KeepsGoal,
      ← and_or_left, and_imp]
    refine forall₂_congr fun c hc => ?_
    rw [substitute_swapObjects a b (created_of_mem_goal hc)]
  have hmem : ∀ q ∈ ((computeObjToAssignmentsMap assignments).get? a).getD [] ++
      ((computeObjToAssignmentsMap assignments).get? b).getD [], q ∈ assignments := by
    intro q hq
    rcases List.mem_append.mp hq with hq | hq
    · exact (mem_objToAssignments.mp hq).1
    · exact (mem_objToAssignments.mp hq).1
  have hsub : ∀ q ∈ assignments,
      P.lifted.manager.substitute (swapObjects a b) q.1 = q.1.rename (Equiv.swap a b) ∧
      P.lifted.manager.substitute (swapObjects a b) q.2 = q.2.rename (Equiv.swap a b) := fun q hq =>
    ⟨substitute_swapObjects a b (P.complete.created _ (has q hq).1),
      substitute_swapObjects a b (created_of_isConstant (P.complete.isConstant (has q hq)))⟩
  rw [areEquivalentObjects]
  by_cases hg : P.KeepsGoal a b
  · obtain ⟨r, hr, hiff⟩ := LiftedProblem.keepsAssignments_spec (p := P.lifted)
      (P.lifted.manager.substitute (swapObjects a b)) (fun q hq => by
        rw [(hsub q (hmem q hq)).1]
        exact P.complete.initialValue_isSome _ (P.complete.swap_mem ha hb ht (has q (hmem q hq)).1))
      (fun q hq q' hq' heq => by
        have hv := (has q (hmem q hq)).2
        rw [heq, (has q' (hmem q' hq')).2] at hv
        exact Prod.ext heq (Option.some.inj hv).symm) []
    refine ⟨r, by rw [if_pos (hgoal.mpr hg), hr], ?_⟩
    rw [hiff]
    simp only [List.not_mem_nil, false_or, List.mem_append, mem_objToAssignments, ← and_or_left,
      and_imp, hg, true_and, LiftedProblem.KeepsAssignments]
    refine forall₂_congr fun q hq => ?_
    rw [(hsub q hq).1, (hsub q hq).2]
  · refine ⟨false, by rw [if_neg fun h => hg (hgoal.mp h)], ?_⟩
    simp [hg]

/-- The comparison decides whether the objects are interchangeable. -/
theorem compareObjects_spec (ha : a ∈ P.lifted.objects) (hb : b ∈ P.lifted.objects)
    (ht : a.type = b.type) :
    ∃ r, P.compareObjects a b = some r ∧ (r = true ↔ P.Interchangeable a b) := by
  rw [compareObjects, interchangeable_iff]
  split_ifs with hd
  · obtain ⟨assignments, has, hall⟩ := LiftedProblem.mem_initialValues P.complete
    obtain ⟨r, hr, hiff⟩ := areEquivalentObjects_spec ha hb ht fun q hq => (hall q).mp hq
    refine ⟨r, by rw [has]; exact hr, ?_⟩
    rw [hiff, LiftedProblem.keepsState_iff_of_forall P.complete ha hb ht hall]
  · rw [not_or] at hd
    obtain ⟨r, hr, hiff⟩ := areEquivalentObjects_spec ha hb ht fun q hq =>
      ((LiftedProblem.mem_explicitAssignments P.complete).mp hq).1
    refine ⟨r, hr, ?_⟩
    rw [hiff, LiftedProblem.keepsState_iff_explicit P.complete ha hb ht hd.1 hd.2]

/-! ### Signatures -/

theorem type_swap (ht : a.type = b.type) (o : UPObject) : (Equiv.swap a b o).type = o.type := by
  rw [Equiv.swap_apply_def]
  split_ifs with hoa hob
  · rw [hoa, ht]
  · rw [hob, ht]
  · rfl

theorem abstractExp_rename (ht : a.type = b.type) {e : FNode} (h : e.isConstant = true) :
    abstractExp b (e.rename (Equiv.swap a b)) = abstractExp a e := by
  rw [abstractExp, abstractExp, object?_rename]
  cases ho : e.object? with
  | none => rw [rename_constant h (by simp [ho])]; rfl
  | some o =>
    have hiff : Equiv.swap a b o = b ↔ o = a := by
      rw [Equiv.swap_apply_eq_iff, Equiv.swap_apply_right]
    simp only [Option.map_some, hiff, type_swap ht]

theorem assignmentFeature_rename (ht : a.type = b.type) {q : FNode × FNode}
    (hq : P.lifted.Assigns q.1 q.2) :
    assignmentFeature b (q.1.rename (Equiv.swap a b), q.2.rename (Equiv.swap a b)) =
      assignmentFeature a q := by
  have hargs : (q.1.args.map (rename (Equiv.swap a b))).map (abstractExp b) =
      q.1.args.map (abstractExp a) := by
    rw [List.map_map]
    exact List.map_congr_left fun e he =>
      abstractExp_rename ht (P.complete.isConstant_of_mem_args hq.1 he)
  rw [assignmentFeature, assignmentFeature, fluent?_rename, args_rename, hargs,
    abstractExp_rename ht (P.complete.isConstant hq)]

theorem conjunctFeature_eq {c c' : FNode} (f : UPObject → UPObject) (h : Reordered (c.rename f) c') :
    conjunctFeature c' = conjunctFeature c := by
  have hperm := (h.extractFluents_perm.symm).map UPFluent.name
  rw [extractFluents_rename] at hperm
  rw [conjunctFeature, conjunctFeature]
  congr 1
  have hsorted : ∀ l : List String, (l.insertionSort (· ≤ ·)).Pairwise (· ≤ ·) :=
    List.pairwise_insertionSort _
  exact (((List.perm_insertionSort _ _).trans hperm).trans (List.perm_insertionSort _ _).symm).eq_of_pairwise
    (fun _ _ _ _ => le_antisymm) (hsorted _) (hsorted _)

/-- Swapping takes the explicit assignments of one object to those of the other. -/
theorem assignments_perm (hs : P.lifted.KeepsState a b) (had : a ∉ P.lifted.defaultObjects)
    (hbd : b ∉ P.lifted.defaultObjects) :
    ((P.lifted.explicitAssignments.filter (a ∈ assignmentObjects ·)).map fun q =>
      (q.1.rename (Equiv.swap a b), q.2.rename (Equiv.swap a b))).Perm
        (P.lifted.explicitAssignments.filter (b ∈ assignmentObjects ·)) := by
  have hinv : Function.Involutive fun q : FNode × FNode =>
      (q.1.rename (Equiv.swap a b), q.2.rename (Equiv.swap a b)) := fun q =>
    Prod.ext (LiftedProblem.rename_swap_swap a b q.1) (LiftedProblem.rename_swap_swap a b q.2)
  have hnodup : P.lifted.explicitAssignments.Nodup :=
    (List.Nodup.of_map Prod.fst P.lifted.explicitInitialValues.nodup).filter _
  have hstep : ∀ q ∈ P.lifted.explicitAssignments,
      (q.1.rename (Equiv.swap a b), q.2.rename (Equiv.swap a b)) ∈ P.lifted.explicitAssignments := by
    intro q hq
    rw [LiftedProblem.mem_explicitAssignments P.complete] at hq ⊢
    refine ⟨(hs _ _).mpr hq.1, fun hd => hq.2 ?_⟩
    rw [fluent?_rename] at hd
    obtain ⟨f, hf, hdef⟩ := Option.bind_eq_some_iff.mp hd
    have hfix := LiftedProblem.rename_default P.complete had hbd hdef
    rw [LiftedProblem.rename_swap_swap] at hfix
    rw [hd, ← hfix]
  have hobj : ∀ q : FNode × FNode, b ∈ assignmentObjects (q.1.rename (Equiv.swap a b),
      q.2.rename (Equiv.swap a b)) ↔ a ∈ assignmentObjects q := by
    intro q
    have hq := LiftedProblem.assignmentObjects_rename (Equiv.swap a b) q a
    rwa [Equiv.swap_apply_left] at hq
  rw [List.perm_ext_iff_of_nodup ((hnodup.filter _).map hinv.injective) (hnodup.filter _)]
  intro q
  simp only [List.mem_map, List.mem_filter, decide_eq_true_eq]
  constructor
  · rintro ⟨q, ⟨hq, ha⟩, rfl⟩
    exact ⟨hstep q hq, (hobj q).mpr ha⟩
  · rintro ⟨hq, hb⟩
    refine ⟨_, ⟨hstep q hq, ?_⟩, hinv q⟩
    rw [← hobj]
    have hback := hinv q
    simp only at hback
    rwa [hback]

/-- Swapping takes the conjuncts of one object to those of the other. -/
theorem conjuncts_perm (hg : P.KeepsGoal a b) :
    ((P.goal.filter (a ∈ extractObjects ·)).map fun c =>
      walk P.manager (c.rename (Equiv.swap a b))).Perm (P.goal.filter (b ∈ extractObjects ·)) := by
  have hcanonical : ∀ c ∈ P.goal, walk P.manager c = c := by
    intro c hc
    obtain ⟨e, he, rfl⟩ := mem_goal.mp hc
    exact walk_walk P.manager (created_of_mem_conjuncts he)
  have hreordered : ∀ c ∈ P.goal, Reordered (c.rename (Equiv.swap a b))
      (walk P.manager (c.rename (Equiv.swap a b))) := fun c hc =>
    reordered_walk P.manager ((created_of_mem_goal hc).rename _)
  have hback : ∀ c ∈ P.goal,
      walk P.manager ((walk P.manager (c.rename (Equiv.swap a b))).rename (Equiv.swap a b)) = c := by
    intro c hc
    have hr := (hreordered c hc).rename (Equiv.swap a b)
    rw [LiftedProblem.rename_swap_swap] at hr
    rw [← (walk_eq_of_reordered P.manager hr (created_of_mem_goal hc)).2, hcanonical c hc]
  have hobj : ∀ c ∈ P.goal,
      b ∈ extractObjects (walk P.manager (c.rename (Equiv.swap a b))) ↔ a ∈ extractObjects c := by
    intro c hc
    rw [← (hreordered c hc).extractObjects_perm.mem_iff, extractObjects_rename, List.mem_map]
    constructor
    · rintro ⟨o, ho, hb⟩
      rw [Equiv.swap_apply_eq_iff, Equiv.swap_apply_right] at hb
      rwa [← hb]
    · exact fun ha => ⟨a, ha, Equiv.swap_apply_left a b⟩
  have hnodup : P.goal.Nodup := List.nodup_dedup _
  have hmap := List.Nodup.map_on (f := fun c => walk P.manager (c.rename (Equiv.swap a b)))
    (fun c hc c' hc' heq => by
      rw [← hback c (List.mem_filter.mp hc).1, ← hback c' (List.mem_filter.mp hc').1, heq])
    (hnodup.filter (a ∈ extractObjects ·))
  rw [List.perm_ext_iff_of_nodup hmap (hnodup.filter _)]
  intro c
  simp only [List.mem_map, List.mem_filter, decide_eq_true_eq]
  constructor
  · rintro ⟨c, ⟨hc, ha⟩, rfl⟩
    exact ⟨rename_swap_goal hg hc, (hobj c hc).mpr ha⟩
  · rintro ⟨hc, hb⟩
    refine ⟨_, ⟨rename_swap_goal hg hc, ?_⟩, hback c hc⟩
    rw [← hobj _ (rename_swap_goal hg hc), hback c hc]
    exact hb

/-- Interchangeable objects have one signature. -/
theorem objectSignature_eq (ht : a.type = b.type) (h : P.Interchangeable a b)
    (had : a ∉ P.lifted.defaultObjects) (hbd : b ∉ P.lifted.defaultObjects) :
    objectSignature a (computeObjToAssignmentsMap P.lifted.explicitAssignments)
        (computeObjToConjunctsMap P.goal) =
      objectSignature b (computeObjToAssignmentsMap P.lifted.explicitAssignments)
        (computeObjToConjunctsMap P.goal) := by
  obtain ⟨hg, hs⟩ := (interchangeable_iff).mp h
  rw [objectSignature, objectSignature, computeObjToAssignmentsMap, computeObjToConjunctsMap]
  simp only [Dict.getD_index assignmentObjects fun _ => List.nodup_dedup _,
    Dict.getD_index (fun c => (extractObjects c).dedup) fun _ => List.nodup_dedup _,
    List.mem_dedup]
  rw [Multiset.coe_eq_coe]
  refine List.Perm.append ?_ ?_
  · refine List.Perm.trans ?_ ((assignments_perm hs had hbd).map (assignmentFeature b))
    rw [List.map_map]
    refine .of_eq (List.map_congr_left fun q hq => ?_)
    have hq' := ((LiftedProblem.mem_explicitAssignments P.complete).mp (List.mem_filter.mp hq).1).1
    exact (assignmentFeature_rename ht hq').symm
  · refine List.Perm.trans ?_ ((conjuncts_perm hg).map conjunctFeature)
    rw [List.map_map]
    refine .of_eq (List.map_congr_left fun c hc => (conjunctFeature_eq (Equiv.swap a b) ?_).symm)
    exact reordered_walk P.manager ((created_of_mem_goal (List.mem_filter.mp hc).1).rename _)

/-! ### The classes -/

/-- Of one type, and interchangeable. -/
def SameClass (P : EncodedProblem) (a b : UPObject) : Prop := a.type = b.type ∧ P.Interchangeable a b

theorem sameClass_equivalence (P : EncodedProblem) : Equivalence P.SameClass where
  refl := fun a => ⟨rfl, P.interchangeable_equivalence.refl a⟩
  symm := fun h => ⟨h.1.symm, P.interchangeable_equivalence.symm h.2⟩
  trans := fun h h' => ⟨h.1.trans h'.1, P.interchangeable_equivalence.trans h.2 h'.2⟩

/-- The comparison and the signature are right for the objects of one type. -/
theorem decides {objs : List UPObject} {t : String}
    (hobjs : ∀ o ∈ objs, o ∈ P.lifted.objects ∧ o.type = t) :
    Representatives.Decides (P.signatureOf objs) (P.compareObjects) (· ∈ objs) P.SameClass where
  equivalence := sameClass_equivalence P
  signature_eq := by
    intro x y hx hy h
    rw [signatureOf, signatureOf]
    split_ifs with hd
    · rfl
    · have hnot : ∀ o ∈ objs, o ∉ P.lifted.defaultObjects := by simpa using hd
      rw [objectSignature_eq h.1 h.2 (hnot x hx) (hnot y hy)]
  equivalent_eq := by
    intro x y hx hy
    have ht : x.type = y.type := (hobjs x hx).2.trans (hobjs y hy).2.symm
    obtain ⟨r, hr, hiff⟩ := compareObjects_spec (hobjs x hx).1 (hobjs y hy).1 ht
    exact ⟨r, hr, hiff.trans ⟨fun h => ⟨ht, h⟩, fun h => h.2⟩⟩

theorem foldlM_sort (excluded : List UPObject) (entries : List (String × List UPObject))
    (hentries : ∀ q ∈ entries, ∀ o ∈ q.2, o ∈ P.lifted.objects ∧ o.type = q.1)
    (groups : List (List UPObject)) (hg : Representatives.Related P.SameClass groups) :
    ∃ groups', entries.foldlM (fun groups q =>
        Representatives.sort (fun obj => decide (obj ∈ excluded)) (P.signatureOf q.2)
          (P.compareObjects) groups q.2) groups = some groups' ∧
      Representatives.Related P.SameClass groups' ∧ Representatives.Extends groups groups' ∧
        ∀ q ∈ entries, ∀ x ∈ q.2, ∀ y ∈ q.2, x ∉ excluded → y ∉ excluded → P.SameClass x y →
          ∃ g ∈ groups', x ∈ g ∧ y ∈ g := by
  induction entries generalizing groups with
  | nil => exact ⟨groups, rfl, hg, Representatives.Extends.refl _, by simp⟩
  | cons q entries ih =>
    obtain ⟨groups₁, h₁, hrel₁, hext₁, hfound₁⟩ :=
      Representatives.sort_spec (fun obj => decide (obj ∈ excluded))
        (decides (hentries q List.mem_cons_self)) (fun x hx _ => hx) hg
    obtain ⟨groups', h', hrel', hext', hfound'⟩ :=
      ih (fun q hq => hentries q (List.mem_cons_of_mem _ hq)) groups₁ hrel₁
    refine ⟨groups', by rw [List.foldlM_cons, h₁]; exact h', hrel', hext₁.trans hext', ?_⟩
    intro q' hq' x hx y hy hxe hye hxy
    rcases List.mem_cons.mp hq' with rfl | hq'
    · obtain ⟨g, hg, hxg, hyg⟩ := hfound₁ x hx y hy (by simpa using hxe) (by simpa using hye) hxy
      obtain ⟨g', hg', hsub⟩ := hext' g hg
      exact ⟨g', hg', hsub hxg, hsub hyg⟩
    · exact hfound' q' hq' x hx y hy hxe hye hxy

/-- Each class holds objects of one type that are interchangeable, and all of those that are not
excluded. -/
theorem computeEquivalentObjects_spec (P : EncodedProblem) (excluded : List UPObject)
    {allObjects : List UPObject} (hall : allObjects.Perm P.lifted.objects) : ∃ classes,
      P.computeEquivalentObjects excluded allObjects = some classes ∧
      Representatives.Related P.SameClass classes ∧
      ∀ x ∈ allObjects, ∀ y ∈ allObjects, x ∉ excluded → y ∉ excluded → P.SameClass x y →
        ∃ g ∈ classes, x ∈ g ∧ y ∈ g := by
  have hget : ∀ t, (Dict.index (fun o : UPObject => [o.type]) allObjects).get? t =
      if ∃ o ∈ allObjects, t ∈ [o.type] then some (allObjects.filter (t ∈ [·.type])) else none :=
    Dict.get?_index _ (fun _ => List.nodup_singleton _) allObjects
  have hentries : ∀ q ∈ (Dict.index (fun o : UPObject => [o.type]) allObjects).entries,
      ∀ o ∈ q.2, o ∈ P.lifted.objects ∧ o.type = q.1 := by
    intro q hq o ho
    have hq' := Dict.get?_eq_some_iff.mpr hq
    rw [hget] at hq'
    split_ifs at hq'
    rw [← Option.some.inj hq', List.mem_filter] at ho
    exact ⟨hall.mem_iff.mp ho.1, by simpa [eq_comm] using ho.2⟩
  obtain ⟨groups, h, hrel, -, hfound⟩ := foldlM_sort excluded _ hentries []
    fun g hg => absurd hg List.not_mem_nil
  refine ⟨groups.map (List.insertionSort fun o o' => o.name ≤ o'.name), ?_, ?_, ?_⟩
  · rw [computeEquivalentObjects, h]
    rfl
  · intro g hg x hx y hy
    obtain ⟨g', hg', rfl⟩ := List.mem_map.mp hg
    exact hrel g' hg' x ((List.mem_insertionSort _).mp hx) y ((List.mem_insertionSort _).mp hy)
  · intro x hx y hy hxe hye hxy
    have hentry : (x.type, allObjects.filter (x.type ∈ [·.type])) ∈
        (Dict.index (fun o : UPObject => [o.type]) allObjects).entries := by
      rw [← Dict.get?_eq_some_iff, hget, if_pos ⟨x, hx, List.mem_singleton_self _⟩]
    obtain ⟨g, hg, hxg, hyg⟩ := hfound _ hentry x (List.mem_filter.mpr ⟨hx, by simp⟩) y
      (List.mem_filter.mpr ⟨hy, by simp [hxy.1]⟩) hxe hye hxy
    exact ⟨_, List.mem_map_of_mem hg, (List.mem_insertionSort _).mpr hxg,
      (List.mem_insertionSort _).mpr hyg⟩

theorem flatten_map_perm {α : Type*} {f : List α → List α} (hf : ∀ l, (f l).Perm l) (ls : List (List α)) :
    (ls.map f).flatten.Perm ls.flatten := by
  induction ls with
  | nil => exact .refl _
  | cons l ls ih => exact (hf l).append ih

/-- The classes partition the objects. -/
theorem computeEquivalentObjects_perm {excluded allObjects : List UPObject} {classes : List (List UPObject)}
    (h : P.computeEquivalentObjects excluded allObjects = some classes) :
    classes.flatten.Perm allObjects := by
  simp only [computeEquivalentObjects, Option.bind_eq_bind, Option.bind_eq_some_iff] at h
  obtain ⟨groups, hgroups, h⟩ := h
  obtain rfl := Option.some.inj h
  refine (flatten_map_perm (List.perm_insertionSort _) groups).trans ?_
  refine List.Perm.trans ?_ (Dict.values_index_perm UPObject.type allObjects)
  have hall : ∀ (entries : List (String × List UPObject)) (groups groups' : List (List UPObject)),
      entries.foldlM (fun groups q => Representatives.sort (fun obj => decide (obj ∈ excluded))
        (P.signatureOf q.2) P.compareObjects groups q.2) groups = some groups' →
      groups'.flatten.Perm (groups.flatten ++ entries.flatMap Prod.snd) := by
    intro entries
    induction entries with
    | nil =>
      intro groups groups' hg
      obtain rfl := Option.some.inj hg
      rw [List.flatMap_nil, List.append_nil]
    | cons q entries ih =>
      intro groups groups' hg
      rw [List.foldlM_cons] at hg
      obtain ⟨groups₁, hg₁, hg⟩ := Option.bind_eq_some_iff.mp hg
      have hq := (Representatives.flatten_sort_perm hg₁).append_right (entries.flatMap Prod.snd)
      rw [List.append_assoc] at hq
      exact (ih groups₁ groups' hg).trans hq
  exact hall _ [] groups hgroups

/-- Whatever the order in which the objects are visited, two objects of one type that are not
excluded are in one class exactly if they are interchangeable. -/
theorem same_class_iff_interchangeable (P : EncodedProblem)
    {excluded allObjects : List UPObject} (hall : allObjects.Perm P.lifted.objects) {a b : UPObject}
    (ha : a ∈ P.lifted.objects) (hb : b ∈ P.lifted.objects) (hae : a ∉ excluded) (hbe : b ∉ excluded)
    (ht : a.type = b.type) :
    ∃ groups, P.computeEquivalentObjects excluded allObjects = some groups ∧
      ((∃ g ∈ groups, a ∈ g ∧ b ∈ g) ↔ P.Interchangeable a b) := by
  obtain ⟨groups, h, hrel, hfound⟩ := P.computeEquivalentObjects_spec excluded hall
  refine ⟨groups, h, ?_⟩
  constructor
  · rintro ⟨g, hg, hag, hbg⟩
    exact (hrel g hg a hag b hbg).2
  · intro hab
    exact hfound a (hall.mem_iff.mpr ha) b (hall.mem_iff.mpr hb) hae hbe ⟨ht, hab⟩

end EncodedProblem

section Tokens

def token (name : String) : UPObject := ⟨name, "Token"⟩

def next : UPFluent := ⟨"f", false⟩

def tokenFluents : List FNode :=
  [.node (.fluentExp next) [objectExp (token "o1")], .node (.fluentExp next) [objectExp (token "o2")]]

def tokenValues : Dict FNode FNode :=
  Dict.singleton (.node (.fluentExp next) [objectExp (token "o2")]) (objectExp (token "o2"))

def tokenDefaults : Dict UPFluent FNode := Dict.singleton next (objectExp (token "o1"))

/-- Each token is its own successor, the first by default. -/
noncomputable def tokens : LiftedProblem where
  manager := ExpressionManager.choice
  objects := [token "o1", token "o2"]
  groundFluents := tokenFluents
  initialValue := fun e => (tokenValues.get? e).or (e.fluent?.bind tokenDefaults.get?)
  explicitInitialValues := tokenValues
  fluentsDefaults := tokenDefaults

theorem tokens_documented : tokens.Documented where
  groundFluents_fluentExp := by
    intro e he
    rcases List.mem_pair.mp he with rfl | rfl
    · exact ⟨next, [objectExp (token "o1")], rfl, by decide⟩
    · exact ⟨next, [objectExp (token "o2")], rfl, by decide⟩
  groundFluents_rename := by
    intro π hπ e he
    have hmem : ∀ o ∈ [token "o1", token "o2"],
        FNode.node (.fluentExp next) [objectExp o] ∈ tokenFluents := by decide
    rcases List.mem_pair.mp he with rfl | rfl
    · exact hmem _ (hπ (token "o1") List.mem_cons_self).1
    · exact hmem _ (hπ (token "o2") (List.mem_cons_of_mem _ List.mem_cons_self)).1
  initialValue_eq := fun _ _ => rfl

theorem tokens_complete : tokens.Complete where
  toDocumented := tokens_documented
  explicit_mem := by decide +kernel
  explicit_constant := by decide +kernel
  default_constant := by decide +kernel
  initialValue_isSome := by decide +kernel

noncomputable def tokensProblem : EncodedProblem where
  manager := ExpressionManager.choice
  goals := []
  lifted := tokens
  goals_created := fun _ h => absurd h List.not_mem_nil
  complete := tokens_complete

theorem compute_tokens : tokensProblem.computeEquivalentObjects []
    [token "o2", token "o1"] = some [[token "o1", token "o2"]] := by
  decide +kernel

theorem same_class_iff_interchangeable_tokens : tokensProblem.Interchangeable (token "o1") (token "o2") := by
  obtain ⟨groups, h, hiff⟩ := tokensProblem.same_class_iff_interchangeable
    (List.Perm.swap (token "o1") (token "o2") []) (by decide : token "o1" ∈ [token "o1", token "o2"])
    (by decide : token "o2" ∈ [token "o1", token "o2"]) List.not_mem_nil List.not_mem_nil rfl
  rw [compute_tokens] at h
  obtain rfl := Option.some.inj h
  exact hiff.mp ⟨_, List.mem_singleton_self _, by decide, by decide⟩

end Tokens

end TamerLite
