import TamerLite.SearchSpace

/-! Configurations: what a sequence of events does, without instance ids, the
temporal network or any of the shortcuts of the successor function. A schedule
places the instances of a configuration in time. -/

namespace TamerLite

open Difference SearchSpace

/-- An action opened on the way, with the duration bounds read when it was. -/
structure Instance where
  action : Action
  lower : ℚ
  upper : ℚ
  pinned : Bool
deriving DecidableEq, Repr

/-- `todo` maps a running action to its next event and its instance, and
`fired` lists the past events as pairs of an instance and a position. -/
structure Config where
  assignments : Assignments
  todo : AList (fun _ : Action => ℕ × ℕ)
  active : Multiset Expression
  instances : List Instance
  fired : List (ℕ × ℕ)

namespace Config

def actionOf (c : Config) (j : ℕ) : Action := ((c.instances[j]?).map Instance.action).getD ⟨0⟩

def actions (c : Config) : List Action := c.fired.map fun p => c.actionOf p.1

variable [Callables] (ss : SearchSpace)

/-- The plain rule: update the active conditions, apply the effects, then
check every active condition. -/
def fire (c : Config) (e : Event) (p : ℕ × ℕ) (todo : AList (fun _ : Action => ℕ × ℕ))
    (instances : List Instance) : Option Config := do
  let removed ← removeAll e.endConditions c.active
  let assignments ← applyEffects e.effects c.assignments c.assignments
  if ∀ x ∈ removed + e.startConditions, holds x assignments then
    some ⟨assignments, todo, removed + e.startConditions, instances, c.fired ++ [p]⟩
  else none

def step (c : Config) (a : Action) : Option Config := do
  let events ← ss.events a
  match c.todo.lookup a with
  | some (k, j) =>
    let e ← events[k]?
    if holds e.2.conditions c.assignments then
      c.fire e.2 (j, k)
        (if events.length ≤ k + 1 then c.todo.erase a else c.todo.insert a (k + 1, j)) c.instances
    else none
  | none =>
    if ss.timedAction = some a then none
    else if !ss.symmetryAllowsOpening c.actions a then none
    else
      let e ← events[0]?
      if holds e.2.conditions c.assignments then
        let b ← ss.durationBounds a c.assignments
        let j := c.instances.length
        c.fire e.2 (j, 0) (if 1 < events.length then c.todo.insert a (1, j) else c.todo)
          (c.instances ++ [⟨a, b.1, b.2, false⟩])
      else none

def run (c : Config) (as : List Action) : Option Config := as.foldlM (step ss) c

/-- The events after the first of a compressed instance, one right after the
other and without their own conditions. -/
def fireRest (c : Config) (j : ℕ) : List (Timing × Event) → ℕ → Option Config
  | [], _ => some c
  | te :: rest, k => do
    let c' ← c.fire te.2 (j, k) c.todo c.instances
    fireRest c' j rest (k + 1)

def compresses (compression : Bool) (c : Config) (a : Action) : Bool :=
  compression && ss.isCompressionSafe a && (c.todo.lookup a).isNone &&
    1 < ((ss.events a).getD []).length

/-- With compression, opening a compression-safe action fires all its events. -/
def stepWith (compression : Bool) (c : Config) (a : Action) : Option Config := do
  let c' ← c.step ss a
  if compresses ss compression c a then
    fireRest { c' with todo := c'.todo.erase a } c.instances.length ((ss.events a).getD []).tail 1
  else some c'

def runWith (compression : Bool) (c : Config) (as : List Action) : Option Config :=
  as.foldlM (stepWith ss compression) c

/-- The configuration of the initial state, with the timed action running. -/
def initial : Option Config :=
  let c : Config := ⟨ss.initialState, ∅, 0, [], []⟩
  match ss.timedAction with
  | none => some c
  | some a => do
    let events ← ss.events a
    let e ← events[0]?
    if holds e.2.conditions c.assignments then
      let b ← ss.durationBounds a c.assignments
      c.fire e.2 (0, 0) (if 1 < events.length then c.todo.insert a (1, 0) else c.todo)
        [⟨a, b.1, b.2, true⟩]
    else none

def goalReached (c : Config) : Bool := c.todo.entries.isEmpty && holds ss.goal c.assignments

/-- The configurations some sequence of expansions leads to. -/
def Reachable (compression : Bool) (c : Config) : Prop :=
  ∃ c₀ as, initial ss = some c₀ ∧ c₀.runWith ss compression as = some c

end Config

/-! ### Schedules -/

/-- The times at which each instance starts and stops, from the plan's start. -/
abbrev Schedule := ℕ → ℚ × ℚ

namespace Schedule

variable (ss : SearchSpace) (c : Config) (σ : Schedule)

/-- Event `p.2` of instance `p.1` sits at its delay from the start or the end. -/
def time (p : ℕ × ℕ) : ℚ :=
  match ss.event (c.actionOf p.1) p.2 with
  | none => (σ p.1).1
  | some (t, _) => (if t.start then (σ p.1).1 else (σ p.1).2) + t.delay

def mutex (p q : ℕ × ℕ) : Prop := ss.mutex (c.actionOf q.1, q.2) (c.actionOf p.1, p.2) = true

instance (p q : ℕ × ℕ) : Decidable (mutex ss c p q) := inferInstanceAs (Decidable (_ = true))

/-- The events of running instances that are still to fire. -/
def pending : List (ℕ × ℕ) :=
  c.todo.entries.flatMap fun ⟨a, i⟩ =>
    (List.range (((ss.events a).getD []).drop i.1).length).map fun k => (i.2, i.1 + k)

/-- `σ` respects the duration bounds, the plan's start, the order of the past
events with its mutex gaps, and leaves every pending event behind them. -/
structure Valid : Prop where
  bounds : ∀ (j : ℕ) (i : Instance), c.instances[j]? = some i →
    i.lower ≤ (σ j).2 - (σ j).1 ∧ (σ j).2 - (σ j).1 ≤ i.upper
  origin : ∀ (j : ℕ) (i : Instance), c.instances[j]? = some i →
    if i.pinned then (σ j).1 = 0 else 0 ≤ (σ j).1
  ordered : c.fired.Pairwise (Follows (mutex ss c) ss.epsilon (time ss c σ))
  pending : ∀ p ∈ c.fired, ∀ q ∈ pending ss c,
    Follows (mutex ss c) ss.epsilon (time ss c σ) p q

/-- Every instance ends at least `epsilon` before the deadline. -/
def MeetsDeadline : Prop :=
  ∀ d, ss.deadline = some d → ∀ j < c.instances.length, (σ j).2 + ss.epsilon ≤ d

end Schedule

end TamerLite
