import TamerLite.Expression

/-! The interpreted-function registry and result cache, shared by every solve of
the process and wiped when the last live scope is left. -/

namespace TamerLite

namespace InterpretedFunctions

/-- An evaluated argument or result. What is neither a value nor an object
cannot be passed. -/
inductive Node
  | bool (b : Bool)
  | int (z : ℤ)
  | rational (q : ℚ)
  | object (o : Object)
  | other (n : ExpressionNode)
deriving DecidableEq, Repr

/-- Python's values and errors, and the conversions to and from them. -/
class Python where
  Value : Type
  Error : Type
  ofBool : Bool → Value
  ofInt : ℤ → Value
  fraction : ℚ → Value
  objectNode : Node → Value
  toBool : Value → Except Error Bool
  toInt : Value → Except Error ℤ
  toFraction : Value → Except Error ℚ
  extractNode : Value → Except Error Node
  debug : Node → String
  valueError : String → Error
  runtimeError : String → Error

section Calls

variable [Python]

abbrev PyFunction := List Python.Value → Except Python.Error Python.Value

def interpretedFunctionArg : Node → Except Python.Error Python.Value
  | .bool v => .ok (Python.ofBool v)
  | .int v => .ok (Python.ofInt v)
  | .rational v => .ok (Python.fraction v)
  | .object o => .ok (Python.objectNode (.object o))
  | other => .error (Python.valueError
      ("Cannot pass " ++ Python.debug other ++ " as an interpreted-function argument"))

/-- `rational_node`: a rational with denominator 1 is an integer. -/
def rationalNode (q : ℚ) : Node := if q.den = 1 then .int q.num else .rational q

def interpretedFunctionResult (result : Python.Value) : IfReturnType → Except Python.Error Node
  | .bool => .bool <$> Python.toBool result
  | .int => .int <$> Python.toInt result
  | .real => rationalNode <$> Python.toFraction result
  | .object => do
    match ← Python.extractNode result with
    | .object o => .ok (.object o)
    | other => .error (Python.valueError
        ("An interpreted function with an object return type must return an ObjectNode, got " ++
          Python.debug other))

/-- What a callable itself returns on `args`, as a node of the declared type. -/
def evaluateCallable (callable : PyFunction) (returnType : IfReturnType) (args : List Node) :
    Except Python.Error Node := do
  let pyArgs ← args.mapM interpretedFunctionArg
  let result ← callable pyArgs
  interpretedFunctionResult result returnType

end Calls

/-! ### The result cache -/

structure IfCallKey where
  funcId : ℕ
  returnType : IfReturnType
  args : List Node
deriving DecidableEq, Repr

section Lru

variable {κ α : Type*} [DecidableEq κ]

/-- The cached value of `key`, and the cache with its entry moved to the front. -/
def lruGet (cache : List (κ × α)) (key : κ) : Option (α × List (κ × α)) :=
  (cache.find? fun e => e.1 = key).map fun e => (e.2, e :: cache.filter fun e => e.1 ≠ key)

/-- The latest entry goes to the front, the least recently used one falls out. -/
def lruPut (capacity : ℕ) (cache : List (κ × α)) (key : κ) (value : α) : List (κ × α) :=
  ((key, value) :: cache.filter fun e => e.1 ≠ key).take capacity

variable {cache cache' : List (κ × α)} {key : κ} {value : α}

theorem lruGet_eq_some (h : lruGet cache key = some (value, cache')) :
    (key, value) ∈ cache ∧ cache' ⊆ cache := by
  obtain ⟨e, he, heq⟩ := Option.map_eq_some_iff.mp h
  obtain ⟨rfl, rfl⟩ := Prod.mk.inj heq
  have hm := List.mem_of_find?_eq_some he
  have hk : e.1 = key := by simpa using List.find?_some he
  refine ⟨hk ▸ hm, fun x hx => ?_⟩
  rcases List.mem_cons.mp hx with rfl | hx
  · exact hm
  · exact (List.mem_filter.mp hx).1

theorem mem_lruPut {capacity : ℕ} {e : κ × α} (h : e ∈ lruPut capacity cache key value) :
    e = (key, value) ∨ e ∈ cache := by
  rcases List.mem_cons.mp (List.mem_of_mem_take h) with rfl | h
  · exact .inl rfl
  · exact .inr (List.mem_filter.mp h).1

end Lru

def ifResultsCapacity : ℕ := 65536

/-! ### The process -/

/-- A node built by `make_interpreted_function_node`, with the scope it was
built in and the callable it was built from. -/
structure RegisteredNode [Python] where
  scope : Option ℕ
  funcId : ℕ
  returnType : IfReturnType
  callable : PyFunction

/-- The Python objects at each address, the registry and the cache, and the
scopes that were entered and not left. -/
structure Process [Python] where
  heap : ℕ → PyFunction
  interpretedFunctions : List ℕ
  ifIdsByPtr : List (ℕ × ℕ)
  ifResults : List (IfCallKey × Node)
  liveIfScopes : ℤ
  entered : ℕ
  live : List ℕ
  suspended : List ℕ
  nodes : List RegisteredNode

namespace Process

variable [Python]

def initial (heap : ℕ → PyFunction) : Process := ⟨heap, [], [], [], 0, 0, [], [], []⟩

def registerInterpretedFunction (p : Process) (ptr : ℕ) : ℕ × Process :=
  match p.ifIdsByPtr.lookup ptr with
  | some id => (id, p)
  | none =>
    let id := p.interpretedFunctions.length
    (id, { p with
      interpretedFunctions := p.interpretedFunctions ++ [ptr]
      ifIdsByPtr := (ptr, id) :: p.ifIdsByPtr })

def getInterpretedFunction (p : Process) (funcId : ℕ) : Except Python.Error PyFunction :=
  match p.interpretedFunctions[funcId]? with
  | some ptr => .ok (p.heap ptr)
  | none => .error (Python.runtimeError
      s!"interpreted function {funcId} is no longer registered: the expression referencing it outlived the solve that created it")

def callInterpretedFunctionUncached (p : Process) (funcId : ℕ) (returnType : IfReturnType)
    (args : List Node) : Except Python.Error Node := do
  let callable ← p.getInterpretedFunction funcId
  evaluateCallable callable returnType args

/-- Errors are never cached. -/
def callInterpretedFunction (p : Process) (funcId : ℕ) (returnType : IfReturnType)
    (args : List Node) : Except Python.Error Node × Process :=
  let key : IfCallKey := ⟨funcId, returnType, args⟩
  match lruGet p.ifResults key with
  | some (hit, cache) => (.ok hit, { p with ifResults := cache })
  | none =>
    match p.callInterpretedFunctionUncached funcId returnType args with
    | .ok value =>
      (.ok value, { p with ifResults := lruPut ifResultsCapacity p.ifResults key value })
    | .error e => (.error e, p)

def clearInterpretedFunctionCache (p : Process) : Process :=
  { p with ifResults := [], interpretedFunctions := [], ifIdsByPtr := [] }

def enterScope (p : Process) : Process :=
  { p with
    liveIfScopes := p.liveIfScopes + 1
    entered := p.entered + 1
    live := p.entered :: p.live }

/-- The `finally` of the scope, also when a suspended generator is closed. -/
def leaveScope (p : Process) (scope : ℕ) : Process :=
  let p := { p with
    liveIfScopes := p.liveIfScopes - 1
    live := p.live.erase scope
    suspended := p.suspended.erase scope }
  if p.liveIfScopes = 0 then p.clearInterpretedFunctionCache else p

def suspend (p : Process) (scope : ℕ) : Process := { p with suspended := scope :: p.suspended }

def resume (p : Process) (scope : ℕ) : Process :=
  { p with suspended := p.suspended.erase scope }

def makeInterpretedFunctionNode (p : Process) (scope : Option ℕ) (ptr : ℕ)
    (returnType : IfReturnType) : Process :=
  let (id, p) := p.registerInterpretedFunction ptr
  { p with nodes := ⟨scope, id, returnType, p.heap ptr⟩ :: p.nodes }

/-- A new object at an address. The registry holds a reference to what it
registered, so no such address is free. -/
def allocate (p : Process) (ptr : ℕ) (callable : PyFunction) : Process :=
  { p with heap := Function.update p.heap ptr callable }

/-- One step of any of the solves: scopes are entered, suspended, resumed and
left in any order, a suspended one does not register. -/
inductive Step : Process → Process → Prop
  | enter (p : Process) : Step p p.enterScope
  | leave {p : Process} {scope : ℕ} : scope ∈ p.live → Step p (p.leaveScope scope)
  | suspend {p : Process} {scope : ℕ} : scope ∈ p.live → scope ∉ p.suspended →
      Step p (p.suspend scope)
  | resume {p : Process} {scope : ℕ} : scope ∈ p.suspended → Step p (p.resume scope)
  | register {p : Process} {scope : Option ℕ} (ptr : ℕ) (returnType : IfReturnType) :
      (∀ s, scope = some s → s ∈ p.live ∧ s ∉ p.suspended) →
      Step p (p.makeInterpretedFunctionNode scope ptr returnType)
  | call (p : Process) (funcId : ℕ) (returnType : IfReturnType) (args : List Node) :
      Step p (p.callInterpretedFunction funcId returnType args).2
  | allocate {p : Process} {ptr : ℕ} (callable : PyFunction) : ptr ∉ p.interpretedFunctions →
      Step p (p.allocate ptr callable)

abbrev Reachable (heap : ℕ → PyFunction) (p : Process) : Prop :=
  Relation.ReflTransGen Step (initial heap) p

/-- What holds between steps: ids are the positions of what they were given to,
results are those of the registered callables, the counter counts the live
scopes, and their nodes are registered. -/
structure Consistent (p : Process) : Prop where
  count : p.liveIfScopes = p.live.length
  entered : ∀ s ∈ p.live, s < p.entered
  made : ∀ n ∈ p.nodes, ∀ s, n.scope = some s → s < p.entered
  ids : ∀ e ∈ p.ifIdsByPtr, p.interpretedFunctions[e.2]? = some e.1
  results : ∀ e ∈ p.ifResults, ∃ ptr, p.interpretedFunctions[e.1.funcId]? = some ptr ∧
    evaluateCallable (p.heap ptr) e.1.returnType e.1.args = .ok e.2
  nodes : ∀ n ∈ p.nodes, ∀ s, n.scope = some s → s ∈ p.live →
    ∃ ptr, p.interpretedFunctions[n.funcId]? = some ptr ∧ p.heap ptr = n.callable

variable {p : Process}

theorem consistent_initial (heap : ℕ → PyFunction) : Consistent (initial heap) := by
  refine ⟨rfl, ?_, ?_, ?_, ?_, ?_⟩ <;> intro x hx <;> exact absurd hx List.not_mem_nil

theorem Consistent.enter (h : Consistent p) : Consistent p.enterScope := by
  refine ⟨?_, fun s hs => ?_, fun n hn s hs => ?_, h.ids, h.results, fun n hn s hs hl => ?_⟩
  · simp only [enterScope, h.count, List.length_cons]
    push_cast
    rfl
  · show s < p.entered + 1
    rcases List.mem_cons.mp hs with rfl | hs
    · omega
    · have hlt := h.entered s hs
      omega
  · show s < p.entered + 1
    have hlt := h.made n hn s hs
    omega
  · rcases List.mem_cons.mp hl with rfl | hl
    · exact absurd (h.made n hn p.entered hs) (Nat.lt_irrefl _)
    · exact h.nodes n hn s hs hl

theorem Consistent.leave {scope : ℕ} (h : Consistent p) (hs : scope ∈ p.live) :
    Consistent (p.leaveScope scope) := by
  have hcount : p.liveIfScopes - 1 = (p.live.erase scope).length := by
    have hpos := List.length_pos_of_mem hs
    rw [List.length_erase_of_mem hs, h.count]
    omega
  have hsub : p.live.erase scope ⊆ p.live := List.erase_subset
  simp only [leaveScope]
  split_ifs with hzero
  · have hnil : p.live.erase scope = [] := by
      rw [hcount] at hzero
      exact List.length_eq_zero_iff.mp (by exact_mod_cast hzero)
    refine ⟨hcount, fun s hl => h.entered s (hsub hl), h.made, fun e he => absurd he List.not_mem_nil,
      fun e he => absurd he List.not_mem_nil, fun n hn s hs hl => ?_⟩
    have hl' : s ∈ p.live.erase scope := hl
    rw [hnil] at hl'
    exact absurd hl' List.not_mem_nil
  · exact ⟨hcount, fun s hl => h.entered s (hsub hl), h.made, h.ids, h.results,
      fun n hn s hs hl => h.nodes n hn s hs (hsub hl)⟩

/-- The id given to a callable resolves to it, and no other id changes. -/
theorem registerInterpretedFunction_spec (h : Consistent p) (ptr : ℕ) :
    let r := p.registerInterpretedFunction ptr
    r.2.interpretedFunctions[r.1]? = some ptr ∧
      (∀ id q : ℕ, p.interpretedFunctions[id]? = some q → r.2.interpretedFunctions[id]? = some q) ∧
      (∀ e ∈ r.2.ifIdsByPtr, r.2.interpretedFunctions[e.2]? = some e.1) ∧
      r.2 = { p with interpretedFunctions := r.2.interpretedFunctions, ifIdsByPtr := r.2.ifIdsByPtr } := by
  simp only [registerInterpretedFunction]
  cases hl : p.ifIdsByPtr.lookup ptr with
  | some id =>
    obtain ⟨l₁, l₂, heq, -⟩ := List.lookup_eq_some_iff.mp hl
    have hm : (ptr, id) ∈ p.ifIdsByPtr := by
      rw [heq]
      simp
    exact ⟨h.ids _ hm, fun _ _ h => h, h.ids, rfl⟩
  | none =>
    have hkeep : ∀ id q : ℕ, p.interpretedFunctions[id]? = some q →
        (p.interpretedFunctions ++ [ptr])[id]? = some q := by
      intro id q hq
      rw [List.getElem?_append_left (List.getElem?_eq_some_iff.mp hq).1, hq]
    refine ⟨by simp, hkeep, fun e he => ?_, rfl⟩
    rcases List.mem_cons.mp he with rfl | he
    · simp
    · exact hkeep _ _ (h.ids e he)

theorem Consistent.register {scope : Option ℕ} {ptr : ℕ} {returnType : IfReturnType}
    (h : Consistent p) (hs : ∀ s, scope = some s → s ∈ p.live) :
    Consistent (p.makeInterpretedFunctionNode scope ptr returnType) := by
  obtain ⟨hid, hkeep, hids, hrest⟩ := registerInterpretedFunction_spec h ptr
  simp only [makeInterpretedFunctionNode]
  generalize p.registerInterpretedFunction ptr = r at hid hkeep hids hrest
  obtain ⟨id, r⟩ := r
  obtain ⟨heap, fs, idsByPtr, results, count, entered, live, suspended, nodes⟩ := r
  simp only [mk.injEq] at hrest
  obtain ⟨rfl, -, -, rfl, rfl, rfl, rfl, rfl, rfl⟩ := hrest
  refine ⟨h.count, h.entered, fun n hn s hns => ?_, hids, fun e he => ?_, fun n hn s hns hl => ?_⟩
  · rcases List.mem_cons.mp hn with rfl | hn
    · exact h.entered s (hs s hns)
    · exact h.made n hn s hns
  · obtain ⟨q, hq, he⟩ := h.results e he
    exact ⟨q, hkeep _ _ hq, he⟩
  · rcases List.mem_cons.mp hn with rfl | hn
    · exact ⟨ptr, hid, rfl⟩
    · obtain ⟨q, hq, he⟩ := h.nodes n hn s hns hl
      exact ⟨q, hkeep _ _ hq, he⟩

theorem callUncached_eq {funcId ptr : ℕ} {returnType : IfReturnType} {args : List Node}
    (hf : p.interpretedFunctions[funcId]? = some ptr) :
    p.callInterpretedFunctionUncached funcId returnType args =
      evaluateCallable (p.heap ptr) returnType args := by
  simp only [callInterpretedFunctionUncached, getInterpretedFunction, hf]
  rfl

/-- A result that comes back is that of the registered callable. -/
theorem callUncached_ok {funcId : ℕ} {returnType : IfReturnType} {args : List Node} {value : Node}
    (h : p.callInterpretedFunctionUncached funcId returnType args = .ok value) :
    ∃ ptr, p.interpretedFunctions[funcId]? = some ptr ∧
      evaluateCallable (p.heap ptr) returnType args = .ok value := by
  cases hf : p.interpretedFunctions[funcId]? with
  | some ptr => exact ⟨ptr, rfl, callUncached_eq hf ▸ h⟩
  | none =>
    simp only [callInterpretedFunctionUncached, getInterpretedFunction, hf] at h
    contradiction

theorem Consistent.call (h : Consistent p) (funcId : ℕ) (returnType : IfReturnType)
    (args : List Node) : Consistent (p.callInterpretedFunction funcId returnType args).2 := by
  simp only [callInterpretedFunction]
  split
  · rename_i hit cache hget
    exact { h with results := fun e he => h.results e ((lruGet_eq_some hget).2 he) }
  · split
    · rename_i value hcall
      refine { h with results := fun e he => ?_ }
      rcases mem_lruPut he with rfl | he
      · exact callUncached_ok hcall
      · exact h.results e he
    · exact h

theorem Consistent.allocate {ptr : ℕ} {callable : PyFunction} (h : Consistent p)
    (hfree : ptr ∉ p.interpretedFunctions) : Consistent (p.allocate ptr callable) := by
  have hheap : ∀ {id q : ℕ}, p.interpretedFunctions[id]? = some q →
      Function.update p.heap ptr callable q = p.heap q := by
    intro id q hq
    apply Function.update_of_ne
    rintro rfl
    exact hfree (List.mem_of_getElem? hq)
  refine { h with results := fun e he => ?_, nodes := fun n hn s hs hl => ?_ }
  · obtain ⟨q, hq, he⟩ := h.results e he
    exact ⟨q, hq, (congrArg (evaluateCallable · _ _) (hheap hq)).trans he⟩
  · obtain ⟨q, hq, he⟩ := h.nodes n hn s hs hl
    exact ⟨q, hq, (hheap hq).trans he⟩

theorem Reachable.consistent {heap : ℕ → PyFunction} (h : Reachable heap p) : Consistent p := by
  induction h with
  | refl => exact consistent_initial heap
  | tail _ hs ih =>
    cases hs with
    | enter => exact ih.enter
    | leave hl => exact ih.leave hl
    | suspend => exact { ih with }
    | resume => exact { ih with }
    | register ptr returnType hl => exact ih.register fun s hs => (hl s hs).1
    | call => exact ih.call _ _ _
    | allocate callable hfree => exact ih.allocate hfree

/-- A call through a node of a live scope returns what the node's own callable
returns. -/
theorem call_eq_own {heap : ℕ → PyFunction} (h : Reachable heap p) {n : RegisteredNode}
    (hn : n ∈ p.nodes) {s : ℕ} (hs : n.scope = some s) (hl : s ∈ p.live) (args : List Node) :
    (p.callInterpretedFunction n.funcId n.returnType args).1 =
      evaluateCallable n.callable n.returnType args := by
  have hc := h.consistent
  obtain ⟨ptr, hptr, hown⟩ := hc.nodes n hn s hs hl
  have hcall : p.callInterpretedFunctionUncached n.funcId n.returnType args =
      evaluateCallable n.callable n.returnType args := by rw [callUncached_eq hptr, hown]
  simp only [callInterpretedFunction]
  split
  · rename_i hit cache hget
    obtain ⟨q, hq, he⟩ := hc.results _ (lruGet_eq_some hget).1
    obtain rfl := Option.some.inj (hptr.symm.trans hq)
    rw [← hown]
    exact he.symm
  · split
    · rename_i value hv
      rw [← hcall, hv]
    · rename_i e he
      rw [← hcall, he]

end Process

section Nested

open Process

/-- Values and errors as nodes and texts, with integers that count as fractions. -/
abbrev plain : Python where
  Value := Node
  Error := String
  ofBool := .bool
  ofInt := .int
  fraction := .rational
  objectNode := id
  toBool
    | .bool b => .ok b
    | _ => .error "bool"
  toInt
    | .int z => .ok z
    | _ => .error "int"
  toFraction
    | .int z => .ok z
    | .rational q => .ok q
    | _ => .error "Fraction"
  extractNode := .ok
  debug := fun _ => "node"
  valueError := id
  runtimeError := id

attribute [local instance] plain

def nestedStart : Process := initial fun ptr args =>
  if ptr = 0 then args.head?.elim (.error "args") .ok else .ok (.int 5)

/-- The node of the outer scope was made before the inner scope was entered. -/
def nestedInner : Process :=
  ((nestedStart.enterScope).makeInterpretedFunctionNode (some 0) 7 .int).enterScope

/-- The outer scope is suspended after the inner one was left. -/
def nested : Process := (nestedInner.leaveScope 1).suspend 0

theorem nested_reachable : Reachable nestedStart.heap nested := by
  have hinner : Reachable nestedStart.heap nestedInner :=
    (((Relation.ReflTransGen.refl).tail (.enter nestedStart)).tail
      (.register 7 .int (by decide))).tail (.enter _)
  have hleft : Step nestedInner (nestedInner.leaveScope 1) := .leave (by decide)
  have hsuspended : Step (nestedInner.leaveScope 1) nested := .suspend (by decide) (by decide)
  exact (hinner.tail hleft).tail hsuspended

theorem nested_call : ∃ n, n ∈ nested.nodes ∧ n.scope = some 0 ∧
    (nested.callInterpretedFunction n.funcId n.returnType [.int 3]).1 = .ok (.int 5) := by
  have hn : (⟨some 0, 0, .int, nestedStart.heap 7⟩ : RegisteredNode) ∈ nested.nodes :=
    List.mem_cons_self
  exact ⟨_, hn, rfl, call_eq_own nested_reachable hn rfl (by decide) [.int 3]⟩

end Nested

end InterpretedFunctions

end TamerLite
