import TamerLite.Records
import TamerLite.SearchSpace

/-! Partitioned novelty: the leaves of all conditions, the features a state gives
them, and the class of a state judged against what its partition has seen. -/

namespace TamerLite

open Records

inductive FluentKind
  | bool | int | real | object
deriving DecidableEq, Repr

/-! ### Leaves -/

/-- `exp[i:j]`. -/
def slice (exp : Expression) (i j : ℕ) : Expression := (exp.take j).drop i

def splitParts (exp : Expression) (last : ℕ) : List ℕ → List Expression
  | [] => []
  | i :: is => shiftExpression (slice exp last (i + 1)) (-last) :: splitParts exp (i + 1) is

def splitExpression (exp : Expression) : List Expression :=
  match exp.getLast? with
  | some (.operator .and operands) => splitParts exp 0 operands
  | _ => [exp]

def getEventConditions (event : Event) : List Expression :=
  (splitExpression event.conditions ++ event.endConditions).eraseDups

/-- Where the sub-expression rooted at `i` starts. Operands come before their
operators, so no chain of first operands is longer than the expression. -/
def firstNode (exp : Expression) : ℕ → ℕ → ℕ
  | 0, i => i
  | fuel + 1, i =>
    match exp[i]? with
    | some (.operator _ (o :: _)) => firstNode exp fuel o
    | some (.interpretedFunction _ _ (o :: _)) => firstNode exp fuel o
    | _ => i

def extractSubExpression (exp : Expression) (idx : ℕ) : Expression :=
  let i := firstNode exp exp.length idx
  shiftExpression (slice exp i (idx + 1)) (-i)

/-- The leaves below nested `and`/`or`, left to right. -/
def subgoalLeaves (exp : Expression) : ℕ → ℕ → List Expression
  | 0, _ => []
  | fuel + 1, idx =>
    match exp[idx]? with
    | some (.operator .and operands) => operands.flatMap (subgoalLeaves exp fuel)
    | some (.operator .or operands) => operands.flatMap (subgoalLeaves exp fuel)
    | some _ => [extractSubExpression exp idx]
    | none => []

def iterSubgoalLeaves (exp : Expression) : List Expression :=
  subgoalLeaves exp exp.length (exp.length - 1)

def isObjectTypedOperand (fluentDomains : List FluentKind) : ExpressionNode → Option Bool
  | .constant (.object _) => some true
  | .fluent f => fluentDomains[f.idx]?.map (· = .object)
  | .interpretedFunction _ rt _ => some (rt = .object)
  | _ => some false

inductive Leaf
  | prop (operand : Expression)
  | num (lhs rhs : Expression) (kind : OperatorKind)
deriving DecidableEq, Repr

def isNumericRoot (fluentDomains : List FluentKind) (exp : Expression) :
    ExpressionNode → Option Bool
  | .operator .le _ => some true
  | .operator .lt _ => some true
  | .operator .eq operands => do
    if ← isObjectTypedOperand fluentDomains (← exp[← operands[0]?]?) then some false
    else return !(← isObjectTypedOperand fluentDomains (← exp[← operands[1]?]?))
  | _ => some false

def makeLeaf (fluentDomains : List FluentKind) (exp : Expression) : Option Leaf := do
  let root ← exp.getLast?
  if ← isNumericRoot fluentDomains exp root then
    match root with
    | .operator kind [op1, op2] =>
      some (.num (extractSubExpression exp op1) (extractSubExpression exp op2) kind)
    | _ => none
  else some (.prop exp)

def addLeaf (fluentDomains : List FluentKind) (catalogue : List (Expression × Leaf))
    (exp : Expression) : Option (List (Expression × Leaf)) :=
  if exp ∈ catalogue.map Prod.fst then some catalogue
  else (makeLeaf fluentDomains exp).map fun leaf => catalogue ++ [(exp, leaf)]

/-- The expressions the leaves come from, in the order they are added. -/
def subgoals (events : List (Action × List (Timing × Event))) (goals : Expression) :
    List Expression :=
  (events.flatMap fun p => p.2.flatMap fun te => (getEventConditions te.2).flatMap iterSubgoalLeaves)
    ++ iterSubgoalLeaves goals

def Leaf.fluents : Leaf → List Fluent
  | .prop operand => getFluents operand
  | .num lhs rhs _ => getFluents lhs ++ getFluents rhs

/-- The leaf catalogue and, for each fluent, the leaves that read it. -/
structure LeafIndex where
  leaves : List Leaf
  fluentToLeaves : ℕ → List ℕ
  covers : ∀ {id : ℕ} {leaf : Leaf}, leaves[id]? = some leaf → ∀ f ∈ leaf.fluents,
    id ∈ fluentToLeaves f.idx
  known : ∀ {f id : ℕ}, id ∈ fluentToLeaves f → id < leaves.length

theorem getFluents_extract {exp : Expression} {idx : ℕ} {f : Fluent}
    (h : f ∈ getFluents (extractSubExpression exp idx)) : f ∈ getFluents exp := by
  rw [mem_getFluents] at h ⊢
  obtain ⟨e, he, hs⟩ := List.mem_map.mp h
  have hf : e = .fluent f := by
    cases e with
    | fluent g => exact hs
    | operator => simp [shiftNode] at hs
    | interpretedFunction => simp [shiftNode] at hs
    | constant => simp [shiftNode] at hs
  exact hf ▸ List.mem_of_mem_take (List.mem_of_mem_drop he)

theorem fluents_makeLeaf {fluentDomains : List FluentKind} {exp : Expression} {leaf : Leaf}
    (h : makeLeaf fluentDomains exp = some leaf) {f : Fluent} (hf : f ∈ leaf.fluents) :
    f ∈ getFluents exp := by
  simp only [makeLeaf, Option.bind_eq_bind, Option.bind_eq_some_iff] at h
  obtain ⟨root, -, numeric, -, h⟩ := h
  cases numeric with
  | false =>
    obtain rfl := Option.some.inj h
    exact hf
  | true =>
    rw [if_pos rfl] at h
    split at h
    · obtain rfl := Option.some.inj h
      rcases List.mem_append.mp hf with hf | hf <;> exact getFluents_extract hf
    · contradiction

theorem addLeaf_fluents {fluentDomains : List FluentKind} {exps : List Expression}
    {catalogue catalogue' : List (Expression × Leaf)}
    (h : exps.foldlM (addLeaf fluentDomains) catalogue = some catalogue')
    (hc : ∀ p ∈ catalogue, ∀ f ∈ p.2.fluents, f ∈ getFluents p.1) :
    ∀ p ∈ catalogue', ∀ f ∈ p.2.fluents, f ∈ getFluents p.1 := by
  induction exps generalizing catalogue with
  | nil =>
    obtain rfl := Option.some.inj h
    exact hc
  | cons exp exps ih =>
    rw [List.foldlM_cons, Option.bind_eq_bind, Option.bind_eq_some_iff] at h
    obtain ⟨next, hnext, h⟩ := h
    refine ih h ?_
    unfold addLeaf at hnext
    split_ifs at hnext with hin
    · obtain rfl := Option.some.inj hnext
      exact hc
    · obtain ⟨leaf, hleaf, rfl⟩ := Option.map_eq_some_iff.mp hnext
      intro p hp f hf
      rcases List.mem_append.mp hp with hp | hp
      · exact hc p hp f hf
      · obtain rfl := List.mem_singleton.mp hp
        exact fluents_makeLeaf hleaf hf

/-- The leaves of all conditions and of the goal, each once. -/
def LeafIndex.ofProblem (events : List (Action × List (Timing × Event))) (goals : Expression)
    (fluentDomains : List FluentKind) : Option LeafIndex :=
  match h : (subgoals events goals).foldlM (addLeaf fluentDomains) [] with
  | none => none
  | some catalogue => some {
      leaves := catalogue.map Prod.snd
      fluentToLeaves := fun f =>
        (catalogue.zipIdx.filter fun p => ⟨f⟩ ∈ getFluents p.1.1).map Prod.snd
      covers := by
        intro id leaf hleaf f hf
        rw [List.getElem?_map, Option.map_eq_some_iff] at hleaf
        obtain ⟨p, hp, rfl⟩ := hleaf
        have hread := addLeaf_fluents h (fun p hp => absurd hp List.not_mem_nil) p
          (List.mem_of_getElem? hp) f hf
        refine List.mem_map.mpr ⟨(p, id), List.mem_filter.mpr ⟨?_, by simpa using hread⟩, rfl⟩
        exact List.mem_zipIdx_iff_getElem?.mpr hp
      known := by
        intro f id hid
        obtain ⟨p, hp, rfl⟩ := List.mem_map.mp hid
        have hget := List.mem_zipIdx_iff_getElem?.mp (List.mem_filter.mp hp).1
        rw [List.length_map]
        exact (List.getElem?_eq_some_iff.mp hget).1 }

section Features

variable [Callables]

/-- `_make_operand`: a bare fluent or constant is read without `evaluate`. -/
def operandValue (exp : Expression) (a : Assignments) : Option ConstantNode :=
  match exp with
  | [.fluent f] => getValue a f
  | [.constant v] => some v
  | exp => evaluate exp a

/-- Whether a propositional leaf is the literal `True`. -/
def propTruth (operand : Expression) (a : Assignments) : Option Bool :=
  (operandValue operand a).map (· = .bool true)

/-- The distance of a numeric leaf, larger the closer, and whether it holds. -/
def computeSdist (lhs rhs : Expression) (kind : OperatorKind) (a : Assignments) :
    Option (ℚ × Bool) := do
  let r ← (← operandValue rhs a).toNum
  let l ← (← operandValue lhs a).toNum
  let diff := r - l
  match kind with
  | .eq => some (if diff ≤ 0 then diff else -diff, diff = 0)
  | .le => some (diff, 0 ≤ diff)
  | _ => some (diff, 0 < diff)

/-- What the passes read: the leaves by what became of them, and the distances. -/
structure Classification where
  newlySatisfied : List ℕ
  currentlySatisfied : List ℕ
  persistingSatisfied : List ℕ
  numericImproved : List ℕ
  numericUnsatisfied : List ℕ
  sdist : ℕ → Option ℚ

namespace Classification

def empty : Classification := ⟨[], [], [], [], [], fun _ => none⟩

def addProp (c : Classification) (id : ℕ) (pTrue sTrue : Bool) : Classification :=
  if sTrue then
    let c := { c with currentlySatisfied := c.currentlySatisfied ++ [id] }
    if pTrue then { c with persistingSatisfied := c.persistingSatisfied ++ [id] }
    else { c with newlySatisfied := c.newlySatisfied ++ [id] }
  else c

def addNum (c : Classification) (id : ℕ) (parent state : ℚ × Bool) : Classification :=
  let c := { c with sdist := Function.update c.sdist id (some state.1) }
  let c := if state.2 then { c with currentlySatisfied := c.currentlySatisfied ++ [id] }
    else { c with numericUnsatisfied := c.numericUnsatisfied ++ [id] }
  if !parent.2 && parent.1 < state.1 then
    if state.2 then { c with newlySatisfied := c.newlySatisfied ++ [id] }
    else { c with numericImproved := c.numericImproved ++ [id] }
  else if parent.2 && state.2 then
    { c with persistingSatisfied := c.persistingSatisfied ++ [id] }
  else c

/-- Without a parent to compare with, everything counts as new. -/
def addNew (state : Assignments) (c : Classification) (leaf : Leaf × ℕ) : Option Classification :=
  match leaf with
  | (.prop operand, id) => do
    if ← propTruth operand state then
      return { c with
        currentlySatisfied := c.currentlySatisfied ++ [id]
        newlySatisfied := c.newlySatisfied ++ [id] }
    else return c
  | (.num lhs rhs kind, id) => do
    let (sdist, currSat) ← computeSdist lhs rhs kind state
    let c := { c with sdist := Function.update c.sdist id (some sdist) }
    if currSat then
      return { c with
        currentlySatisfied := c.currentlySatisfied ++ [id]
        newlySatisfied := c.newlySatisfied ++ [id] }
    else return { c with
      numericUnsatisfied := c.numericUnsatisfied ++ [id]
      numericImproved := c.numericImproved ++ [id] }

/-- A leaf's features in parent and state, both from scratch. -/
def addBoth (parent state : Assignments) (c : Classification) (leaf : Leaf × ℕ) :
    Option Classification :=
  match leaf with
  | (.prop operand, id) => do
    return c.addProp id (← propTruth operand parent) (← propTruth operand state)
  | (.num lhs rhs kind, id) => do
    return c.addNum id (← computeSdist lhs rhs kind parent) (← computeSdist lhs rhs kind state)

end Classification

/-! ### Tables -/

/-- What one partition has seen: leaves and pairs of leaves satisfied, and the
best distances, alone and together with a satisfied leaf. -/
structure PartitionTables where
  psiSeen : ℕ → Bool
  bestSdist : ℕ → Option ℚ
  psiPairSeen : ℕ × ℕ → Bool
  bestSdistWithPsi : ℕ × ℕ → Option ℚ

def PartitionTables.empty : PartitionTables :=
  ⟨fun _ => false, fun _ => none, fun _ => false, fun _ => none⟩

namespace Classification

def distance (c : Classification) (id : ℕ) : ℚ := (c.sdist id).getD 0

def unorderedPair (f tid : ℕ) : ℕ × ℕ := if f < tid then (f, tid) else (tid, f)

/-- The pairs of a new leaf and a satisfied one. On a fresh partition the two
lists agree, and the pairs before `ax` were enumerated before. -/
def satisfiedPairs (c : Classification) (newPartition : Bool) : List (ℕ × ℕ) :=
  c.newlySatisfied.zipIdx.flatMap fun p =>
    ((c.currentlySatisfied.drop (if newPartition then p.2 + 1 else 0)).filter (· ≠ p.1)).map
      (unorderedPair p.1)

def newWithUnsatisfied (c : Classification) : List ((ℕ × ℕ) × ℚ) :=
  c.newlySatisfied.flatMap fun f =>
    (c.numericUnsatisfied.filter (· ≠ f)).map fun tid => ((f, tid), c.distance tid)

def persistingWithImproved (c : Classification) : List ((ℕ × ℕ) × ℚ) :=
  c.numericImproved.flatMap fun tid =>
    (c.persistingSatisfied.filter (· ≠ tid)).map fun f => ((f, tid), c.distance tid)

/-- Passes B and C: the class, and the tables with what was new. -/
def passes (tables : PartitionTables) (c : Classification) (newPartition : Bool) :
    ℕ × PartitionTables :=
  let (novelty, psiSeen) := c.newlySatisfied.foldl (note 1) (3, tables.psiSeen)
  let (novelty, bestSdist) := (c.numericImproved.map fun id => (id, c.distance id)).foldl (improve 1)
    (novelty, tables.bestSdist)
  let (novelty, psiPairSeen) := (c.satisfiedPairs newPartition).foldl (note 2)
    (novelty, tables.psiPairSeen)
  let (novelty, bestSdistWithPsi) := c.newWithUnsatisfied.foldl (improve 2)
    (novelty, tables.bestSdistWithPsi)
  let (novelty, bestSdistWithPsi) := c.persistingWithImproved.foldl (improve 2)
    (novelty, bestSdistWithPsi)
  (novelty, ⟨psiSeen, bestSdist, psiPairSeen, bestSdistWithPsi⟩)

end Classification

/-! ### Evaluation -/

/-- The features of the state being expanded, filled in on first use. -/
structure ParentFeatures where
  propTrue : ℕ → Option Bool
  numeric : ℕ → Option (ℚ × Bool)
  snapshot : Option (List ℕ × List ℕ)

namespace ParentFeatures

def empty : ParentFeatures := ⟨fun _ => none, fun _ => none, none⟩

def parentProp (features : ParentFeatures) (id : ℕ) (operand : Expression) (parent : Assignments) :
    Option (Bool × ParentFeatures) :=
  match features.propTrue id with
  | some pTrue => some (pTrue, features)
  | none => (propTruth operand parent).map fun pTrue =>
    (pTrue, { features with propTrue := Function.update features.propTrue id (some pTrue) })

def parentNum (features : ParentFeatures) (id : ℕ) (lhs rhs : Expression) (kind : OperatorKind)
    (parent : Assignments) : Option ((ℚ × Bool) × ParentFeatures) :=
  match features.numeric id with
  | some cached => some (cached, features)
  | none => (computeSdist lhs rhs kind parent).map fun cached =>
    (cached, { features with numeric := Function.update features.numeric id (some cached) })

/-- One leaf of the snapshot: satisfied in the parent, or numeric and not. -/
def addSnapshot (parent : Assignments) (acc : (List ℕ × List ℕ) × ParentFeatures)
    (leaf : Leaf × ℕ) : Option ((List ℕ × List ℕ) × ParentFeatures) :=
  match leaf with
  | (.prop operand, id) => do
    let (pTrue, features) ← acc.2.parentProp id operand parent
    return (if pTrue then (acc.1.1 ++ [id], acc.1.2) else acc.1, features)
  | (.num lhs rhs kind, id) => do
    let ((_, sat), features) ← acc.2.parentNum id lhs rhs kind parent
    return (if sat then (acc.1.1 ++ [id], acc.1.2) else (acc.1.1, acc.1.2 ++ [id]), features)

def ensureParentSnapshot (leaves : List Leaf) (features : ParentFeatures) (parent : Assignments) :
    Option ((List ℕ × List ℕ) × ParentFeatures) :=
  match features.snapshot with
  | some snapshot => some (snapshot, features)
  | none => do
    let (snapshot, features) ← leaves.zipIdx.foldlM (addSnapshot parent) (([], []), features)
    return (snapshot, { features with snapshot := some snapshot })

end ParentFeatures

/-- A leaf reading a changed fluent, with the parent's features from the cache. -/
def Classification.addDirty (leaves : List Leaf) (parent state : Assignments)
    (acc : Classification × ParentFeatures) (id : ℕ) : Option (Classification × ParentFeatures) := do
  match ← leaves[id]? with
  | .prop operand =>
    let (pTrue, features) ← acc.2.parentProp id operand parent
    return (acc.1.addProp id pTrue (← propTruth operand state), features)
  | .num lhs rhs kind =>
    let (pNum, features) ← acc.2.parentNum id lhs rhs kind parent
    return (acc.1.addNum id pNum (← computeSdist lhs rhs kind state), features)

structure NumericNovelty where
  index : LeafIndex
  partitions : ℕ → PartitionTables
  maxPartition : ℕ
  features : ParentFeatures

namespace NumericNovelty

def beginExpansion (nn : NumericNovelty) : NumericNovelty := { nn with features := .empty }

/-- `floor(h_value)`, at most the top partition; `none` rejects a negative value. -/
def partitionOf (nn : NumericNovelty) (h : ℚ) : Option ℕ :=
  if 0 ≤ h then some (min ⌊h⌋₊ nn.maxPartition) else none

def start (nn : NumericNovelty) (initialH : ℚ) : Option (ℕ × NumericNovelty) :=
  if 0 ≤ initialH then
    let nn := beginExpansion { nn with
      partitions := fun _ => .empty
      maxPartition := max 1 ⌊initialH⌋₊ }
    (nn.partitionOf initialH).map fun p => (p, nn)
  else none

/-- Every leaf reading a fluent whose value is another object in the state. -/
def markDirtyLeaves (nn : NumericNovelty) (parent : Assignments) (isNot : ℕ → Bool) : List ℕ :=
  (((List.range parent.length).filter isNot).flatMap nn.index.fluentToLeaves).eraseDups

def evalNew (nn : NumericNovelty) (state : Assignments) (partition : ℕ) :
    Option (ℕ × NumericNovelty) := do
  let c ← nn.index.leaves.zipIdx.foldlM (Classification.addNew state) .empty
  let r := c.passes (nn.partitions partition) true
  return (r.1, { nn with partitions := Function.update nn.partitions partition r.2 })

/-- The dirty leaves, and from the parent's snapshot the clean ones. -/
def merge (dirty : List ℕ) (c : Classification) (snapshot : List ℕ × List ℕ)
    (features : ParentFeatures) : Classification where
  newlySatisfied := c.newlySatisfied
  currentlySatisfied := c.currentlySatisfied ++ snapshot.1.filter (· ∉ dirty)
  persistingSatisfied := c.persistingSatisfied ++ snapshot.1.filter (· ∉ dirty)
  numericImproved := c.numericImproved
  numericUnsatisfied := c.numericUnsatisfied ++ snapshot.2.filter (· ∉ dirty)
  sdist := fun id => c.sdist id <|> (features.numeric id).map Prod.fst

def evalSame (nn : NumericNovelty) (state : Assignments) (partition : ℕ) (parent : Assignments)
    (isNot : ℕ → Bool) : Option (ℕ × NumericNovelty) :=
  if parent.length = state.length then do
    let dirty := nn.markDirtyLeaves parent isNot
    let (c, features) ← dirty.foldlM (Classification.addDirty nn.index.leaves parent state)
      (.empty, nn.features)
    if c.newlySatisfied = [] ∧ c.numericImproved = [] then
      return (3, { nn with features := features })
    else
      let (snapshot, features) ← features.ensureParentSnapshot nn.index.leaves parent
      let r := (merge dirty c snapshot features).passes (nn.partitions partition) false
      return (r.1, { nn with
        partitions := Function.update nn.partitions partition r.2
        features := features })
  else none

/-- `eval`, where `isNot f` is whether the values of fluent `f` in parent and
state are different objects. -/
def eval (nn : NumericNovelty) (state : Assignments) (partition : ℕ)
    (parent : Option (Assignments × ℕ)) (isNot : ℕ → Bool) : Option (ℕ × NumericNovelty) :=
  match parent with
  | some (parent, parentPartition) =>
    if parentPartition = partition then nn.evalSame state partition parent isNot
    else nn.evalNew state partition
  | none => nn.evalNew state partition

/-- The evaluation that computes every leaf in parent and state from scratch. -/
def evalDense (leaves : List Leaf) (partitions : ℕ → PartitionTables) (state : Assignments)
    (partition : ℕ) (parent : Option (Assignments × ℕ)) : Option (ℕ × (ℕ → PartitionTables)) := do
  let (c, newPartition) ← match parent with
    | some (parent, parentPartition) =>
      if parentPartition = partition then
        (leaves.zipIdx.foldlM (Classification.addBoth parent state) .empty).map (·, false)
      else (leaves.zipIdx.foldlM (Classification.addNew state) .empty).map (·, true)
    | none => (leaves.zipIdx.foldlM (Classification.addNew state) .empty).map (·, true)
  let r := c.passes (partitions partition) newPartition
  return (r.1, Function.update partitions partition r.2)

end NumericNovelty

end Features

end TamerLite
