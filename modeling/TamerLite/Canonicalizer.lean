import Mathlib.Data.Countable.Basic
import Mathlib.Data.List.Sort
import Mathlib.Data.Rat.Encodable
import Mathlib.Logic.Equiv.List
import Mathlib.Tactic.DeriveCountable
import TamerLite.FNode

/-! Expressions up to the order of commutative arguments: renaming their objects, and the
canonical form that sorts those arguments by node id. -/

namespace TamerLite

def NodeKind.commutative : NodeKind → Bool
  | .and | .or | .plus | .times | .equals | .iff => true
  | _ => false

def NodeKind.rename (f : UPObject → UPObject) : NodeKind → NodeKind
  | .objectExp o => .objectExp (f o)
  | kind => kind

/-- Constants and objects. -/
def NodeKind.isConstant : NodeKind → Bool
  | .objectExp _ | .boolConstant _ | .intConstant _ | .realConstant _ => true
  | _ => false

/-- The expression manager and the substituter of the planning library. The manager keeps one
node for each expression. It takes no arguments to a constant, and what else it rewrites (a
connective of one argument, a double negation) depends on the arguments' number and on negations. -/
structure ExpressionManager where
  createNode : NodeKind → List FNode → FNode
  substitute : (FNode → Option FNode) → FNode → FNode
  id : FNode → ℕ
  id_injective : Function.Injective id
  createNode_constant : ∀ {kind : NodeKind}, kind.isConstant = true → ∀ args : List FNode,
    createNode kind args = .node kind []
  createNode_fluentExp : ∀ (f : UPFluent) (args : List FNode),
    createNode (.fluentExp f) args = .node (.fluentExp f) args
  createNode_similar : ∀ {kind : NodeKind} {args args' : List FNode} (f : UPObject → UPObject),
    createNode kind args = .node kind args → args'.length = args.length →
    (∀ e' ∈ args', e'.kind = .not → ∃ e ∈ args, e.kind = .not) →
    createNode (kind.rename f) args' = .node (kind.rename f) args'
  substitute_node : ∀ (substitutions : FNode → Option FNode) (kind : NodeKind) (args : List FNode),
    substitute substitutions (.node kind args) =
      (substitutions (.node kind args)).getD (createNode kind (args.map (substitute substitutions)))

namespace FNode

def objectExp (o : UPObject) : FNode := .node (.objectExp o) []

/-- `is_object_exp` and `object`. -/
def object? : FNode → Option UPObject
  | node (.objectExp o) _ => some o
  | _ => none

def isConstant : FNode → Bool
  | node (.objectExp _) [] | node (.boolConstant _) [] => true
  | node (.intConstant _) [] | node (.realConstant _) [] => true
  | _ => false

mutual

def extractObjects : FNode → List UPObject
  | node kind args =>
    match kind with
    | .objectExp o => [o]
    | _ => extractObjects' args

def extractObjects' : List FNode → List UPObject
  | [] => []
  | e :: es => extractObjects e ++ extractObjects' es

end

/-- `{obj1: obj2, obj2: obj1}`. -/
def swapObjects (obj1 obj2 : UPObject) (e : FNode) : Option FNode :=
  if e = objectExp obj1 then some (objectExp obj2)
  else if e = objectExp obj2 then some (objectExp obj1)
  else none

mutual

/-- The expression with each object replaced. -/
def rename (f : UPObject → UPObject) : FNode → FNode
  | node kind args => node (kind.rename f) (rename' f args)

def rename' (f : UPObject → UPObject) : List FNode → List FNode
  | [] => []
  | e :: es => rename f e :: rename' f es

end

/-- Every node of the expression is one the manager returns. -/
inductive Created (m : ExpressionManager) : FNode → Prop
  | node {kind : NodeKind} {args : List FNode} (h : m.createNode kind args = .node kind args)
      (hargs : ∀ e ∈ args, Created m e) : Created m (.node kind args)

/-- Equal up to the order of commutative arguments. -/
inductive Reordered : FNode → FNode → Prop
  | refl (e : FNode) : Reordered e e
  | trans {e₁ e₂ e₃ : FNode} (h : Reordered e₁ e₂) (h' : Reordered e₂ e₃) : Reordered e₁ e₃
  | permute {kind : NodeKind} {args args' : List FNode} (hk : kind.commutative = true)
      (h : args.Perm args') : Reordered (.node kind args) (.node kind args')
  | argument {kind : NodeKind} {pre post : List FNode} {e e' : FNode} (h : Reordered e e') :
      Reordered (.node kind (pre ++ e :: post)) (.node kind (pre ++ e' :: post))

end FNode

namespace CommutativeCanonicalizer

/-- `_canonical_order`. -/
def canonicalOrder (m : ExpressionManager) (args : List FNode) : List FNode :=
  args.insertionSort fun e e' => m.id e ≤ m.id e'

mutual

def walk (m : ExpressionManager) : FNode → FNode
  | .node kind args =>
    m.createNode kind (if kind.commutative then canonicalOrder m (walk' m args) else walk' m args)

def walk' (m : ExpressionManager) : List FNode → List FNode
  | [] => []
  | e :: es => walk m e :: walk' m es

end

end CommutativeCanonicalizer

open CommutativeCanonicalizer

/-! ### The nodes of the manager -/

@[simp] theorem NodeKind.rename_id (kind : NodeKind) : kind.rename id = kind := by
  cases kind <;> rfl

@[simp] theorem NodeKind.commutative_rename (kind : NodeKind) (f : UPObject → UPObject) :
    (kind.rename f).commutative = kind.commutative := by
  cases kind <;> rfl

theorem NodeKind.rename_eq_not {kind : NodeKind} {f : UPObject → UPObject} :
    kind.rename f = .not ↔ kind = .not := by
  cases kind <;> simp [NodeKind.rename]

theorem NodeKind.rename_rename (kind : NodeKind) (f g : UPObject → UPObject) :
    (kind.rename g).rename f = kind.rename (f ∘ g) := by
  cases kind <;> rfl

namespace FNode

variable {e e' : FNode} {kind : NodeKind} {args : List FNode} {f g : UPObject → UPObject}
  {a b o : UPObject} {m : ExpressionManager}

theorem rename'_eq (f : UPObject → UPObject) (es : List FNode) : rename' f es = es.map (rename f) := by
  induction es with
  | nil => rfl
  | cons e es ih => rw [rename', ih, List.map_cons]

theorem rename_node (f : UPObject → UPObject) (kind : NodeKind) (args : List FNode) :
    rename f (node kind args) = node (kind.rename f) (args.map (rename f)) := by
  rw [rename, rename'_eq]

theorem kind_rename (f : UPObject → UPObject) (e : FNode) :
    (e.rename f).kind = e.kind.rename f := by
  cases e
  rw [rename_node]
  rfl

theorem rename_rename (f g : UPObject → UPObject) (e : FNode) :
    (e.rename g).rename f = e.rename (f ∘ g) := by
  induction e using FNode.rec (motive_2 := fun es =>
    (es.map (rename g)).map (rename f) = es.map (rename (f ∘ g))) with
  | node kind args ih => rw [rename_node, rename_node, rename_node, NodeKind.rename_rename, ih]
  | nil => rfl
  | cons e es ih ihs => rw [List.map_cons, List.map_cons, List.map_cons, ih, ihs]

@[simp] theorem rename_id (e : FNode) : e.rename id = e := by
  induction e using FNode.rec (motive_2 := fun es => es.map (rename id) = es) with
  | node kind args ih => rw [rename_node, ih, NodeKind.rename_id]
  | nil => rfl
  | cons e es ih ihs => rw [List.map_cons, ih, ihs]

theorem eq_nil_of_createNode (hk : kind.isConstant = true)
    (h : m.createNode kind args = node kind args) : args = [] := by
  rw [m.createNode_constant hk] at h
  cases h
  rfl

theorem created_node :
    Created m (node kind args) ↔ m.createNode kind args = node kind args ∧ ∀ e ∈ args, Created m e := by
  constructor
  · intro h
    cases h with
    | node h hargs => exact ⟨h, hargs⟩
  · rintro ⟨h, hargs⟩
    exact .node h hargs

theorem Created.rename (h : Created m e) (f : UPObject → UPObject) : Created m (e.rename f) := by
  induction h with
  | node h hargs ih =>
    rw [rename_node]
    refine .node (m.createNode_similar f h (List.length_map _) fun e' he' hk => ?_) fun e' he' => ?_
    · obtain ⟨e, he, rfl⟩ := List.mem_map.mp he'
      rw [kind_rename, NodeKind.rename_eq_not] at hk
      exact ⟨e, he, hk⟩
    · obtain ⟨e, he, rfl⟩ := List.mem_map.mp he'
      exact ih e he

/-! ### Objects -/

theorem mem_extractObjects' {es : List FNode} : o ∈ extractObjects' es ↔ ∃ e ∈ es, o ∈ extractObjects e := by
  induction es with
  | nil => simp [extractObjects']
  | cons e es ih => simp [extractObjects', ih]

theorem extractObjects_rename (f : UPObject → UPObject) (e : FNode) :
    extractObjects (e.rename f) = (extractObjects e).map f := by
  induction e using FNode.rec (motive_2 := fun es =>
    extractObjects' (es.map (rename f)) = (extractObjects' es).map f) with
  | node kind args ih =>
    rw [rename_node]
    cases kind <;> first | rfl | exact ih
  | nil => rfl
  | cons e es ih ihs =>
    rw [List.map_cons, extractObjects', extractObjects', ih, ihs, List.map_append]

theorem extractFluents_rename (f : UPObject → UPObject) (e : FNode) :
    extractFluents (e.rename f) = extractFluents e := by
  induction e using FNode.rec (motive_2 := fun es =>
    extractFluents' (es.map (rename f)) = extractFluents' es) with
  | node kind args ih =>
    rw [rename_node]
    cases kind <;> first | rfl | exact ih
  | nil => rfl
  | cons e es ih ihs => rw [List.map_cons, extractFluents', extractFluents', ih, ihs]

/-- Renaming objects that do not occur changes nothing. -/
theorem rename_eq_self (h : Created m e) (hf : ∀ o ∈ extractObjects e, f o = o) : e.rename f = e := by
  induction h with
  | @node kind args h hargs ih =>
    rw [rename_node]
    have hargs' : (∀ o, kind ≠ .objectExp o) → args.map (FNode.rename f) = args := by
      intro hk
      have hobj : extractObjects (node kind args) = extractObjects' args := by
        cases kind <;> first | rfl | exact absurd rfl (hk _)
      rw [hobj] at hf
      conv_rhs => rw [← List.map_id args]
      exact List.map_congr_left fun e he => ih e he fun o ho => hf o (mem_extractObjects'.mpr ⟨e, he, ho⟩)
    cases kind with
    | objectExp o =>
      obtain rfl := eq_nil_of_createNode rfl h
      rw [NodeKind.rename, hf o List.mem_cons_self, List.map_nil]
    | _ => exact congrArg _ (hargs' (by simp))

/-! ### Substitution -/

theorem swapObjects_objectExp (a b o : UPObject) :
    (swapObjects a b (objectExp o)).getD (objectExp o) = objectExp (Equiv.swap a b o) := by
  rw [swapObjects, Equiv.swap_apply_def]
  by_cases ha : o = a
  · simp [ha]
  · by_cases hb : o = b
    · rw [if_neg ha, if_pos hb, if_neg (by simpa [objectExp] using ha), if_pos (by rw [hb]),
        Option.getD_some]
    · simp [objectExp, ha, hb]

theorem swapObjects_eq_none (a b : UPObject) (args : List FNode) (hk : ∀ o, kind ≠ .objectExp o) :
    swapObjects a b (node kind args) = none := by
  simp [swapObjects, objectExp, hk]

/-- The substituter swaps the two objects everywhere. -/
theorem substitute_swapObjects (a b : UPObject) (h : Created m e) :
    m.substitute (swapObjects a b) e = e.rename (Equiv.swap a b) := by
  induction h with
  | @node kind args h hargs ih =>
    rw [m.substitute_node, List.map_congr_left ih, rename_node]
    have hcreated := (Created.node h hargs).rename (Equiv.swap a b)
    rw [rename_node, created_node] at hcreated
    cases kind with
    | objectExp o =>
      obtain rfl := eq_nil_of_createNode rfl h
      rw [m.createNode_constant rfl]
      exact swapObjects_objectExp a b o
    | _ => rw [swapObjects_eq_none a b args (by simp), Option.getD_none]; exact hcreated.1

/-! ### Reordering -/

theorem Reordered.symm (h : Reordered e e') : Reordered e' e := by
  induction h with
  | refl e => exact .refl e
  | trans h h' ih ih' => exact ih'.trans ih
  | permute hk h => exact .permute hk h.symm
  | argument h ih => exact .argument ih

theorem Reordered.kind_eq (h : Reordered e e') : e.kind = e'.kind := by
  induction h with
  | trans h h' ih ih' => exact ih.trans ih'
  | _ => rfl

theorem Reordered.rename (h : Reordered e e') (f : UPObject → UPObject) :
    Reordered (e.rename f) (e'.rename f) := by
  induction h with
  | refl e => exact .refl _
  | trans h h' ih ih' => exact ih.trans ih'
  | permute hk h =>
    rw [rename_node, rename_node]
    exact .permute (by rw [NodeKind.commutative_rename, hk]) (h.map _)
  | argument h ih =>
    rw [rename_node, rename_node, List.map_append, List.map_append, List.map_cons, List.map_cons]
    exact .argument ih

theorem Reordered.arguments {args' : List FNode} (h : List.Forall₂ Reordered args args')
    (pre : List FNode) : Reordered (node kind (pre ++ args)) (node kind (pre ++ args')) := by
  induction h generalizing pre with
  | nil => exact .refl _
  | @cons e e' es es' he h ih =>
    have hrest := ih (pre ++ [e'])
    rw [List.append_assoc, List.append_assoc] at hrest
    exact (Reordered.argument he).trans hrest

theorem extractObjects'_eq (es : List FNode) : extractObjects' es = es.flatMap extractObjects := by
  induction es with
  | nil => rfl
  | cons e es ih => rw [extractObjects', ih, List.flatMap_cons]

theorem extractFluents'_eq (es : List FNode) : extractFluents' es = es.flatMap extractFluents := by
  induction es with
  | nil => rfl
  | cons e es ih => rw [extractFluents', ih, List.flatMap_cons]

theorem Reordered.extractObjects_perm (h : Reordered e e') :
    (extractObjects e).Perm (extractObjects e') := by
  induction h with
  | refl e => exact .refl _
  | trans h h' ih ih' => exact ih.trans ih'
  | @permute kind args args' hk h =>
    have hperm : (extractObjects' args).Perm (extractObjects' args') := by
      rw [extractObjects'_eq, extractObjects'_eq]
      exact h.flatMap_right _
    cases kind <;> first | exact hperm | cases hk
  | @argument kind pre post e e' h ih =>
    have hperm : (extractObjects' (pre ++ e :: post)).Perm (extractObjects' (pre ++ e' :: post)) := by
      rw [extractObjects'_eq, extractObjects'_eq, List.flatMap_append, List.flatMap_append,
        List.flatMap_cons, List.flatMap_cons]
      exact (ih.append_right _).append_left _
    cases kind <;> first | exact hperm | exact .refl _

theorem Reordered.extractFluents_perm (h : Reordered e e') :
    (extractFluents e).Perm (extractFluents e') := by
  induction h with
  | refl e => exact .refl _
  | trans h h' ih ih' => exact ih.trans ih'
  | @permute kind args args' hk h =>
    have hperm : (extractFluents' args).Perm (extractFluents' args') := by
      rw [extractFluents'_eq, extractFluents'_eq]
      exact h.flatMap_right _
    cases kind <;> first | exact hperm | cases hk
  | @argument kind pre post e e' h ih =>
    have hperm : (extractFluents' (pre ++ e :: post)).Perm (extractFluents' (pre ++ e' :: post)) := by
      rw [extractFluents'_eq, extractFluents'_eq, List.flatMap_append, List.flatMap_append,
        List.flatMap_cons, List.flatMap_cons]
      exact (ih.append_right _).append_left _
    cases kind <;> first | exact hperm | exact .refl _

end FNode

/-! ### The canonical form -/

namespace CommutativeCanonicalizer

open FNode

variable {m : ExpressionManager} {kind : NodeKind} {args args' : List FNode} {e e' : FNode}

/-- The arguments in the order the walker leaves them in. -/
def argumentOrder (m : ExpressionManager) (kind : NodeKind) (args : List FNode) : List FNode :=
  if kind.commutative then canonicalOrder m args else args

theorem argumentOrder_perm (m : ExpressionManager) (kind : NodeKind) (args : List FNode) :
    (argumentOrder m kind args).Perm args := by
  rw [argumentOrder]
  split_ifs
  · exact List.perm_insertionSort _ _
  · exact .refl _

theorem canonicalOrder_eq (m : ExpressionManager) (h : args.Perm args') :
    canonicalOrder m args = canonicalOrder m args' := by
  have hsorted : ∀ es, (canonicalOrder m es).Pairwise fun e e' => m.id e ≤ m.id e' :=
    List.pairwise_insertionSort _
  have hperm : (canonicalOrder m args).Perm (canonicalOrder m args') :=
    ((List.perm_insertionSort _ args).trans h).trans (List.perm_insertionSort _ args').symm
  exact hperm.eq_of_pairwise (fun e e' _ _ hle hge => m.id_injective (le_antisymm hle hge))
    (hsorted args) (hsorted args')

theorem walk'_eq (m : ExpressionManager) (es : List FNode) : walk' m es = es.map (walk m) := by
  induction es with
  | nil => rfl
  | cons e es ih => rw [walk', ih, List.map_cons]

/-- The canonical form of an expression is one the manager keeps, of the same kind. -/
theorem walk_spec (m : ExpressionManager) (h : Created m e) : Created m (walk m e) ∧
    ∃ kind args, e = .node kind args ∧
      walk m e = .node kind (argumentOrder m kind (args.map (walk m))) := by
  induction h with
  | @node kind args h hargs ih =>
    have hmem : ∀ e' ∈ argumentOrder m kind (args.map (walk m)), ∃ e ∈ args, walk m e = e' :=
      fun e' he' => List.mem_map.mp ((argumentOrder_perm m kind _).mem_iff.mp he')
    have hlen : (argumentOrder m kind (args.map (walk m))).length = args.length := by
      rw [(argumentOrder_perm m kind _).length_eq, List.length_map]
    have hcreate := m.createNode_similar id h hlen fun e' he' hk => by
      obtain ⟨e, he, rfl⟩ := hmem e' he'
      obtain ⟨-, kind', args', rfl, hw⟩ := ih e he
      rw [hw] at hk
      exact ⟨_, he, hk⟩
    rw [NodeKind.rename_id] at hcreate
    have hwalk : walk m (.node kind args) =
        .node kind (argumentOrder m kind (args.map (walk m))) := by
      rw [walk, walk'_eq]
      exact hcreate
    refine ⟨?_, kind, args, rfl, hwalk⟩
    rw [hwalk]
    refine .node hcreate fun e' he' => ?_
    obtain ⟨e, he, rfl⟩ := hmem e' he'
    exact (ih e he).1

theorem walk_node (m : ExpressionManager) (h : Created m (.node kind args)) :
    walk m (.node kind args) = .node kind (argumentOrder m kind (args.map (walk m))) := by
  obtain ⟨-, kind', args', heq, hw⟩ := walk_spec m h
  cases heq
  exact hw

theorem reordered_walk (m : ExpressionManager) (h : Created m e) : Reordered e (walk m e) := by
  induction h with
  | @node kind args h hargs ih =>
    rw [walk_node m (.node h hargs)]
    have hall : List.Forall₂ Reordered args (args.map (walk m)) := by
      rw [List.forall₂_map_right_iff, List.forall₂_same]
      exact ih
    have hstep : Reordered (.node kind args) (.node kind (args.map (walk m))) :=
      Reordered.arguments hall []
    rw [argumentOrder]
    split_ifs with hk
    · exact hstep.trans (.permute hk (List.perm_insertionSort _ _).symm)
    · exact hstep

/-- Reordered expressions have the same canonical form. -/
theorem walk_eq_of_reordered (m : ExpressionManager) (h : Reordered e e') :
    Created m e → Created m e' ∧ walk m e = walk m e' := by
  induction h with
  | refl e => exact fun he => ⟨he, rfl⟩
  | trans h h' ih ih' =>
    intro he
    obtain ⟨he', hw⟩ := ih he
    obtain ⟨he'', hw'⟩ := ih' he'
    exact ⟨he'', hw.trans hw'⟩
  | @permute kind args args' hk h =>
    intro he
    obtain ⟨hcreate, hargs⟩ := created_node.mp he
    have hcreate' := m.createNode_similar id hcreate h.length_eq.symm fun e' he' hn =>
      ⟨e', h.mem_iff.mpr he', hn⟩
    rw [NodeKind.rename_id] at hcreate'
    have he' : Created m (.node kind args') := .node hcreate' fun e' he' => hargs e' (h.mem_iff.mpr he')
    refine ⟨he', ?_⟩
    rw [walk_node m he, walk_node m he', argumentOrder, argumentOrder, if_pos hk, if_pos hk,
      canonicalOrder_eq m (h.map _)]
  | @argument kind pre post e e' h ih =>
    intro hnode
    obtain ⟨hcreate, hargs⟩ := created_node.mp hnode
    obtain ⟨he', hw⟩ := ih (hargs e (by simp))
    have hlen : (pre ++ e' :: post).length = (pre ++ e :: post).length := by simp
    have hcreate' := m.createNode_similar id hcreate hlen fun e'' he'' hn => by
      rcases List.mem_append.mp he'' with hm | hm
      · exact ⟨e'', List.mem_append_left _ hm, hn⟩
      · rcases List.mem_cons.mp hm with rfl | hm
        · exact ⟨e, by simp, h.kind_eq.trans hn⟩
        · exact ⟨e'', List.mem_append_right _ (List.mem_cons_of_mem _ hm), hn⟩
    rw [NodeKind.rename_id] at hcreate'
    have hnode' : Created m (.node kind (pre ++ e' :: post)) := by
      refine .node hcreate' fun e'' he'' => ?_
      rcases List.mem_append.mp he'' with hm | hm
      · exact hargs e'' (List.mem_append_left _ hm)
      · rcases List.mem_cons.mp hm with rfl | hm
        · exact he'
        · exact hargs e'' (List.mem_append_right _ (List.mem_cons_of_mem _ hm))
    refine ⟨hnode', ?_⟩
    rw [walk_node m hnode, walk_node m hnode']
    simp only [List.map_append, List.map_cons, hw]

/-- The canonical forms agree exactly if only the order of commutative arguments differs. -/
theorem walk_eq_iff (m : ExpressionManager) (he : Created m e) (he' : Created m e') :
    walk m e = walk m e' ↔ Reordered e e' := by
  constructor
  · intro h
    have hr := reordered_walk m he
    rw [h] at hr
    exact hr.trans (reordered_walk m he').symm
  · intro h
    exact (walk_eq_of_reordered m h he).2

theorem walk_walk (m : ExpressionManager) (h : Created m e) : walk m (walk m e) = walk m e :=
  ((walk_eq_iff m h (walk_spec m h).1).mpr (reordered_walk m h)).symm

end CommutativeCanonicalizer

/-! ### There is such a manager -/

/-- The node for a kind and its arguments, simplified as the planning library does. -/
def simplifiedNode : NodeKind → List FNode → FNode
  | .and, args => FNode.conj args
  | .or, [] => .node (.boolConstant false) []
  | .or, [e] => e
  | .plus, [] => .node (.intConstant 0) []
  | .plus, [e] => e
  | .times, [] => .node (.intConstant 1) []
  | .times, [e] => e
  | .not, [e] => if e.kind = .not then e.args.headD e else .node .not [e]
  | .objectExp o, _ => .node (.objectExp o) []
  | .boolConstant b, _ => .node (.boolConstant b) []
  | .intConstant z, _ => .node (.intConstant z) []
  | .realConstant q, _ => .node (.realConstant q) []
  | kind, args => .node kind args

theorem FNode.sizeOf_lt (kind : NodeKind) {args : List FNode} {e : FNode} (h : e ∈ args) :
    sizeOf e < sizeOf (FNode.node kind args) := by
  have := List.sizeOf_lt_of_mem h
  rw [FNode.node.sizeOf_spec]
  omega

theorem FNode.ne_node_singleton (kind : NodeKind) (e : FNode) : e ≠ .node kind [e] := by
  intro h
  have hlt := FNode.sizeOf_lt kind (List.mem_singleton_self e)
  rw [← h] at hlt
  exact lt_irrefl _ hlt

theorem kind_ne_not_of_simplifiedNode {e : FNode} (h : simplifiedNode .not [e] = .node .not [e]) :
    e.kind ≠ .not := by
  intro hk
  obtain ⟨kind, args⟩ := e
  simp only [simplifiedNode, hk, if_true, FNode.args] at h
  cases args with
  | nil => exact FNode.ne_node_singleton _ _ h
  | cons a as =>
    have ha : sizeOf a < sizeOf (FNode.node kind (a :: as)) := FNode.sizeOf_lt _ List.mem_cons_self
    have he := FNode.sizeOf_lt .not (List.mem_singleton_self (FNode.node kind (a :: as)))
    rw [List.headD_cons] at h
    rw [← h] at he
    omega

theorem simplifiedNode_similar {kind : NodeKind} {args args' : List FNode} (f : UPObject → UPObject)
    (h : simplifiedNode kind args = .node kind args) (hl : args'.length = args.length)
    (hn : ∀ e' ∈ args', e'.kind = .not → ∃ e ∈ args, e.kind = .not) :
    simplifiedNode (kind.rename f) args' = .node (kind.rename f) args' := by
  cases kind with
  | and | or | plus | times =>
    match args, args', hl with
    | [], [], _ => cases h
    | [e], [e'], _ => exact absurd h (FNode.ne_node_singleton _ e)
    | _ :: _ :: _, _ :: _ :: _, _ => rfl
  | not =>
    match args, args', hl with
    | [], [], _ => rfl
    | [e], [e'], _ =>
      have he' : e'.kind ≠ .not := by
        intro he'
        obtain ⟨e₁, he₁, hk⟩ := hn e' List.mem_cons_self he'
        rw [List.mem_singleton.mp he₁] at hk
        exact kind_ne_not_of_simplifiedNode h hk
      simp [simplifiedNode, NodeKind.rename, he']
    | _ :: _ :: _, _ :: _ :: _, _ => rfl
  | objectExp | boolConstant | intConstant | realConstant =>
    obtain rfl : args = [] := by simpa [simplifiedNode, eq_comm] using h
    obtain rfl := List.length_eq_zero_iff.mp hl
    rfl
  | _ => rfl

theorem simplifiedNode_constant {kind : NodeKind} (h : kind.isConstant = true) (args : List FNode) :
    simplifiedNode kind args = .node kind [] := by
  cases kind <;> first | rfl | cases h

mutual

def FNode.substituteWith (substitutions : FNode → Option FNode) : FNode → FNode
  | node kind args =>
    (substitutions (node kind args)).getD
      (simplifiedNode kind (FNode.substituteWith' substitutions args))

def FNode.substituteWith' (substitutions : FNode → Option FNode) : List FNode → List FNode
  | [] => []
  | e :: es => FNode.substituteWith substitutions e :: FNode.substituteWith' substitutions es

end

theorem FNode.substituteWith'_eq (substitutions : FNode → Option FNode) (es : List FNode) :
    substituteWith' substitutions es = es.map (substituteWith substitutions) := by
  induction es with
  | nil => rfl
  | cons e es ih => rw [substituteWith', ih, List.map_cons]

theorem FNode.substituteWith_node (substitutions : FNode → Option FNode) (kind : NodeKind)
    (args : List FNode) : substituteWith substitutions (.node kind args) =
      (substitutions (.node kind args)).getD
        (simplifiedNode kind (args.map (substituteWith substitutions))) := by
  rw [substituteWith, substituteWith'_eq]

section Spelling

mutual

/-- The nodes of an expression in preorder, each with its number of arguments. -/
def FNode.spell : FNode → List (NodeKind × ℕ)
  | node kind args => (kind, args.length) :: FNode.spell' args

def FNode.spell' : List FNode → List (NodeKind × ℕ)
  | [] => []
  | e :: es => FNode.spell e ++ FNode.spell' es

end

theorem FNode.spell_inj (e : FNode) : ∀ (e' : FNode) (l l' : List (NodeKind × ℕ)),
    e.spell ++ l = e'.spell ++ l' → e = e' ∧ l = l' := by
  induction e using FNode.rec (motive_2 := fun es => ∀ (es' : List FNode) (l l' : List (NodeKind × ℕ)),
    es.length = es'.length → spell' es ++ l = spell' es' ++ l' → es = es' ∧ l = l') with
  | node kind args ih =>
    intro e' l l' h
    obtain ⟨kind', args'⟩ := e'
    simp only [spell, List.cons_append, List.cons.injEq, Prod.mk.injEq] at h
    obtain ⟨⟨rfl, hlen⟩, h⟩ := h
    obtain ⟨rfl, rfl⟩ := ih args' l l' hlen h
    exact ⟨rfl, rfl⟩
  | nil =>
    rename_i es' l l' hlen h
    cases es' with
    | nil => exact ⟨rfl, h⟩
    | cons => cases hlen
  | cons e es ih ihs =>
    rename_i es' l l' hlen h
    cases es' with
    | nil => cases hlen
    | cons e' es' =>
      rw [spell', spell', List.append_assoc, List.append_assoc] at h
      obtain ⟨rfl, hrest⟩ := ih e' _ _ h
      obtain ⟨rfl, rfl⟩ := ihs es' l l' (Nat.succ.inj hlen) hrest
      exact ⟨rfl, rfl⟩

theorem FNode.spell_injective : Function.Injective FNode.spell := fun e e' h =>
  (spell_inj e e' [] [] (by rw [h])).1

theorem countable_string : Countable String :=
  have : Countable Char := Function.Injective.countable (f := Char.toNat) fun _ _ h => Char.toNat_inj.mp h
  Function.Injective.countable (f := String.toList) fun _ _ h => String.toList_inj.mp h

attribute [local instance] countable_string

deriving instance Countable for UPFluent, UPObject, IfReturnType, NodeKind

/-- A manager that simplifies, with some ids, all different. -/
noncomputable def ExpressionManager.choice : ExpressionManager where
  createNode := simplifiedNode
  substitute := FNode.substituteWith
  id := (exists_injective_nat (List (NodeKind × ℕ))).choose ∘ FNode.spell
  id_injective := (exists_injective_nat _).choose_spec.comp FNode.spell_injective
  createNode_constant := simplifiedNode_constant
  createNode_fluentExp := fun _ _ => rfl
  createNode_similar := simplifiedNode_similar
  substitute_node := FNode.substituteWith_node

end Spelling

end TamerLite
