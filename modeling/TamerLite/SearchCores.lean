import Mathlib.Data.List.Nodup
import Mathlib.Data.Sum.Basic
import TamerLite.PrioritySearch

/-! The priority search of both cores, over any search space and any duplicate
policy: what keeps the two loops together, and what can part them. -/

namespace TamerLite

/-- What a priority search asks of its search space, whose calls share a `World`. -/
structure AbstractSpace (σ π K : Type) where
  World : Type
  initialState : Option (σ × World)
  getSuccessorStates : World → σ → List σ × World
  goalReached : σ → Bool
  extractPath : σ → π
  g : σ → K
  todoLength : σ → ℕ

/-- The states that can come up in a search. -/
inductive AbstractSpace.Reached {σ π K : Type} (ss : AbstractSpace σ π K) : σ → Prop
  | initial {s : σ} {world : ss.World} : ss.initialState = some (s, world) → Reached ss s
  | successor {s t : σ} {world : ss.World} : Reached ss s → t ∈ (ss.getSuccessorStates world s).1 →
      Reached ss t

/-- `insertNew` records a state and says whether the search is to look at it. -/
structure DedupStore (σ : Type) where
  Store : Type
  empty : Store
  insertNew : Store → σ → Bool × Store

namespace DedupStore

variable {σ : Type} (d : DedupStore σ)

/-- The store once the states are recorded one after the other. -/
def after (given : List σ) : d.Store := given.foldl (fun store s => (d.insertNew store s).2) d.empty

/-- Of the states that can come up, a goal is let through as long as none was given. -/
def PassesFirstGoal (Reached : σ → Prop) (isGoal : σ → Bool) : Prop :=
  ∀ given s, (∀ t ∈ given, Reached t ∧ isGoal t = false) → Reached s → isGoal s = true →
    (d.insertNew (d.after given) s).1 = true

@[simp] theorem after_append_singleton (given : List σ) (s : σ) :
    d.after (given ++ [s]) = (d.insertNew (d.after given) s).2 := by
  rw [after, List.foldl_append]
  rfl

end DedupStore

/-- `PrioritizedItem`, over any kind of state. -/
structure SearchItem (σ K : Type) where
  heuristic : K
  state : σ
  idx : ℕ

namespace SearchItem

variable {σ K : Type} [LinearOrder K] (todoLength : σ → ℕ)

/-- `PrioritizedItem.__lt__`. -/
def lt (p q : SearchItem σ K) : Bool :=
  p.heuristic < q.heuristic || (p.heuristic = q.heuristic &&
    (todoLength p.state < todoLength q.state ||
      (todoLength p.state = todoLength q.state && p.idx < q.idx)))

/-- `PrioritizedItem::cmp`, which turns every comparison around. -/
def cmp (p q : SearchItem σ K) : Ordering :=
  (compare q.heuristic p.heuristic).then
    ((compare (todoLength q.state) (todoLength p.state)).then (compare q.idx p.idx))

/-- Whether the max-heap prefers `q` to `p`. -/
def precedes (q p : SearchItem σ K) : Bool := cmp todoLength p q = .lt

def key (p : SearchItem σ K) : Lex (K × Lex (ℕ × ℕ)) :=
  toLex (p.heuristic, toLex (todoLength p.state, p.idx))

theorem lt_eq_key (p q : SearchItem σ K) :
    lt todoLength p q = decide (key todoLength p < key todoLength q) := by
  rw [Bool.eq_iff_iff]
  simp [lt, key, Prod.Lex.toLex_lt_toLex]

theorem precedes_eq_key (p q : SearchItem σ K) :
    precedes todoLength p q = decide (key todoLength p < key todoLength q) := by
  rw [Bool.eq_iff_iff]
  simp [precedes, cmp, key, Prod.Lex.toLex_lt_toLex, Ordering.then_eq_lt, compare_lt_iff_lt]

end SearchItem

/-- The arguments of a search, with the heap of each core. -/
structure SearchTask (σ π K : Type) [LinearOrder K] where
  ss : AbstractSpace σ π K
  heuristic : σ → Option K
  weight : K
  dedup : DedupStore σ
  heapq : PriorityQueue (SearchItem.lt (K := K) ss.todoLength)
  binaryHeap : PriorityQueue (SearchItem.precedes (K := K) ss.todoLength)
  maxExpandedStates : Option ℕ
  earlyTermination : Bool

/-- The variables of the loop. -/
structure SearchLoop (σ K W S : Type) where
  openItems : List (SearchItem σ K)
  store : S
  world : W
  expandedStates : ℕ
  generatedStates : ℕ

/-- What a search returns, with its `expanded_states`, or raises. -/
inductive SearchAnswer (π : Type)
  | path (path : π) (expandedStates : ℕ)
  | noPath (expandedStates : ℕ)
  | expansionLimitReached
deriving DecidableEq

namespace SearchTask

variable {σ π K : Type} [LinearOrder K] [AddCommMagma K] [Sub K] [Mul K] [One K]

/-- The variables of a task's loop. -/
abbrev Loop (task : SearchTask σ π K) : Type :=
  SearchLoop σ K task.ss.World task.dedup.Store

variable (task : SearchTask σ π K)

def isEarlyGoal (s : σ) : Bool := task.earlyTermination && task.ss.goalReached s

/-- `make_child` and `SearchStrategy::child`. -/
def child (core : Core) (s : σ) (h : K) (idx : ℕ) : SearchItem σ K :=
  match core with
  | .python => ⟨(1 - task.weight) * task.ss.g s + task.weight * h, s, idx⟩
  | .rust => ⟨task.weight * h + (1 - task.weight) * task.ss.g s, s, idx⟩

/-- Pushes a candidate that has a value. -/
def push (core : Core) (l : task.Loop) (s : σ) : task.Loop :=
  match task.heuristic s with
  | none => { l with generatedStates := l.generatedStates + 1 }
  | some h =>
    { l with
      openItems := task.child core s h l.generatedStates :: l.openItems
      generatedStates := l.generatedStates + 1 }

/-- The Python loop over the successors: the goal test comes first, and nothing
is evaluated before all of them are seen. -/
def collect (store : task.dedup.Store) : List σ → π ⊕ (List σ × task.dedup.Store)
  | [] => .inr ([], store)
  | s :: states =>
    if task.isEarlyGoal s then .inl (task.ss.extractPath s)
    else
      let inserted := task.dedup.insertNew store s
      (collect inserted.2 states).map id fun c => (if inserted.1 then s :: c.1 else c.1, c.2)

/-- The Rust loop over the successors: a filter lets the new ones through, each
of which is tested and pushed before the next is looked at. -/
def expandEach (l : task.Loop) : List σ → π ⊕ task.Loop
  | [] => .inr l
  | s :: states =>
    let inserted := task.dedup.insertNew l.store s
    let l := { l with store := inserted.2 }
    if inserted.1 then
      if task.isEarlyGoal s then .inl (task.ss.extractPath s)
      else expandEach (task.push .rust l s) states
    else expandEach l states

/-- One expansion, after the popped state was found not to end the search. -/
def expand (core : Core) (s : σ) (l : task.Loop) : π ⊕ task.Loop :=
  let successors := task.ss.getSuccessorStates l.world s
  let l := { l with world := successors.2 }
  match core with
  | .python => (task.collect l.store successors.1).map id fun c =>
      c.1.foldl (task.push .python) { l with store := c.2 }
  | .rust => task.expandEach l successors.1

def pop : Core → List (SearchItem σ K) → Option (SearchItem σ K × List (SearchItem σ K))
  | .python => task.heapq.pop
  | .rust => task.binaryHeap.pop

/-- The loop's body. -/
def step (core : Core) (l : task.Loop) : SearchAnswer π ⊕ task.Loop :=
  match task.pop core l.openItems with
  | none => .inl (.noPath l.expandedStates)
  | some (item, rest) =>
    if expansionLimitReached l.expandedStates task.maxExpandedStates then .inl .expansionLimitReached
    else
      let l := { l with openItems := rest, expandedStates := l.expandedStates + 1 }
      if !task.earlyTermination && task.ss.goalReached item.state then
        .inl (.path (task.ss.extractPath item.state) l.expandedStates)
      else (task.expand core item.state l).map (fun p => .path p l.expandedStates) id

/-- What comes before the loop. -/
def start : SearchAnswer π ⊕ task.Loop :=
  match task.ss.initialState with
  | none => .inl (.noPath 0)
  | some (init, world) =>
    let store := (task.dedup.insertNew task.dedup.empty init).2
    if task.isEarlyGoal init then .inl (.path (task.ss.extractPath init) 0)
    else
      match task.heuristic init with
      | none => .inl (.noPath 0)
      | some h => .inr ⟨[⟨h, init, 0⟩], store, world, 0, 1⟩

/-- The search, cut off after `n` iterations of its loop. -/
def run (core : Core) (n : ℕ) : SearchAnswer π ⊕ task.Loop :=
  Exploration.iterate (task.step core) n task.start

/-- The two loops hold the same items, in whatever order their heaps keep them,
and no goal was recorded that should have ended the search. -/
structure Together (l l' : task.Loop) : Prop where
  openItems : l.openItems.Perm l'.openItems
  store : l.store = l'.store
  world : l.world = l'.world
  expandedStates : l.expandedStates = l'.expandedStates
  generatedStates : l.generatedStates = l'.generatedStates
  numbered : (l.openItems.map SearchItem.idx).Nodup ∧ ∀ i ∈ l.openItems, i.idx < l.generatedStates
  reached : ∀ i ∈ l.openItems, task.ss.Reached i.state
  recorded : ∃ given, l.store = task.dedup.after given ∧
    ∀ s ∈ given, task.ss.Reached s ∧ task.isEarlyGoal s = false

variable {task} {core : Core} {l l' : task.Loop} {s : σ} {states given : List σ}

theorem child_core (s : σ) (h : K) (idx : ℕ) : task.child .rust s h idx = task.child .python s h idx := by
  simp only [child, add_comm]

theorem push_core : task.push .rust = task.push .python := by
  funext l s
  simp only [push, child_core]

theorem push_store (store : task.dedup.Store) :
    task.push core { l with store := store } s = { task.push core l s with store := store } := by
  simp only [push]
  cases task.heuristic s <;> rfl

theorem push_fields : (task.push core l s).store = l.store ∧ (task.push core l s).world = l.world ∧
    (task.push core l s).expandedStates = l.expandedStates ∧
    (task.push core l s).generatedStates = l.generatedStates + 1 := by
  simp only [push]
  cases task.heuristic s <;> exact ⟨rfl, rfl, rfl, rfl⟩

/-- The batch and the filter see the same new states, and stop at the same goal:
the first one is new. -/
theorem expandEach_eq_collect (hpass : task.dedup.PassesFirstGoal task.ss.Reached task.isEarlyGoal)
    (hstore : l.store = task.dedup.after given)
    (hgiven : ∀ t ∈ given, task.ss.Reached t ∧ task.isEarlyGoal t = false)
    (hstates : ∀ t ∈ states, task.ss.Reached t) :
    task.expandEach l states = (task.collect l.store states).map id fun c =>
      c.1.foldl (task.push .python) { l with store := c.2 } := by
  induction states generalizing l given with
  | nil => rfl
  | cons s states ih =>
    rw [expandEach, collect]
    have hs := hstates s List.mem_cons_self
    have hrest : ∀ t ∈ states, task.ss.Reached t := fun t ht => hstates t (List.mem_cons_of_mem _ ht)
    cases hg : task.isEarlyGoal s with
    | true =>
      have hnew : (task.dedup.insertNew l.store s).1 = true := hstore ▸ hpass given s hgiven hs hg
      simp [hnew]
    | false =>
      have hafter : (task.dedup.insertNew l.store s).2 = task.dedup.after (given ++ [s]) := by
        rw [DedupStore.after_append_singleton, hstore]
      have hgiven' : ∀ t ∈ given ++ [s], task.ss.Reached t ∧ task.isEarlyGoal t = false := by
        intro t ht
        rcases List.mem_append.mp ht with ht | ht
        · exact hgiven t ht
        · exact List.mem_singleton.mp ht ▸ ⟨hs, hg⟩
      cases hn : (task.dedup.insertNew l.store s).1 with
      | false =>
        have hloop := ih (l := { l with store := (task.dedup.insertNew l.store s).2 }) hafter hgiven' hrest
        simp only [hn, Bool.false_eq_true, if_false, hloop, Sum.map_map]
        rfl
      | true =>
        have hloop := ih (l := task.push .python { l with store := (task.dedup.insertNew l.store s).2 } s)
          (push_fields.1.trans hafter) hgiven' hrest
        simp only [push_core, hloop, push_fields.1, Bool.false_eq_true, if_false, if_true, Sum.map_map]
        refine congrArg (fun f => Sum.map id f _) (funext fun c => ?_)
        simp only [Function.comp_apply, hn, if_true, List.foldl_cons, push_store]

omit [AddCommMagma K] [Sub K] [Mul K] [One K] in
/-- What a batch recorded, when no goal ended it. -/
theorem collect_inr {store store' : task.dedup.Store} {fresh : List σ}
    (h : task.collect store states = .inr (fresh, store')) :
    store' = states.foldl (fun store s => (task.dedup.insertNew store s).2) store ∧
      fresh ⊆ states ∧ ∀ s ∈ states, task.isEarlyGoal s = false := by
  induction states generalizing store fresh with
  | nil =>
    obtain ⟨rfl, rfl⟩ := Prod.mk.inj (Sum.inr.inj h)
    exact ⟨rfl, by simp, by simp⟩
  | cons s states ih =>
    rw [collect] at h
    split_ifs at h with hg
    cases hc : task.collect (task.dedup.insertNew store s).2 states with
    | inl p => simp [hc] at h
    | inr c =>
      simp only [hc, Sum.map_inr, Sum.inr.injEq, Prod.mk.injEq] at h
      obtain ⟨rfl, rfl⟩ := h
      obtain ⟨hstore, hsub, hrest⟩ := ih hc
      refine ⟨hstore, ?_, fun t ht => ?_⟩
      · split_ifs
        · exact List.cons_subset_cons s hsub
        · exact List.subset_cons_of_subset s hsub
      · rcases List.mem_cons.mp ht with rfl | ht
        · simpa using hg
        · exact hrest t ht

theorem Together.push (h : task.Together l l') (hs : task.ss.Reached s) :
    task.Together (task.push .python l s) (task.push .python l' s) := by
  obtain ⟨hopen, hstore, hworld, hexp, hgen, hnum, hreach, hrec⟩ := h
  simp only [SearchTask.push]
  cases task.heuristic s with
  | none =>
    exact ⟨hopen, hstore, hworld, hexp, by simp [hgen],
      ⟨hnum.1, fun i hi => Nat.lt_succ_of_lt (hnum.2 i hi)⟩, hreach, hrec⟩
  | some v =>
    have hidx : ∀ i ∈ l.openItems, i.idx ≠ l.generatedStates := fun i hi => (hnum.2 i hi).ne
    refine ⟨?_, hstore, hworld, hexp, by simp [hgen], ⟨?_, ?_⟩, ?_, hrec⟩
    · rw [hgen]
      exact hopen.cons _
    · simpa [child, List.nodup_cons, hnum.1] using hidx
    · intro i hi
      rcases List.mem_cons.mp hi with rfl | hi
      · exact Nat.lt_succ_self _
      · exact Nat.lt_succ_of_lt (hnum.2 i hi)
    · intro i hi
      rcases List.mem_cons.mp hi with rfl | hi
      · exact hs
      · exact hreach i hi

theorem Together.foldl_push (h : task.Together l l') (hstates : ∀ s ∈ states, task.ss.Reached s) :
    task.Together (states.foldl (task.push .python) l) (states.foldl (task.push .python) l') := by
  induction states generalizing l l' with
  | nil => exact h
  | cons s states ih =>
    exact ih (h.push (hstates s List.mem_cons_self)) fun t ht => hstates t (List.mem_cons_of_mem _ ht)

omit [AddCommMagma K] [Sub K] [Mul K] [One K] in
/-- Items with different numbers are never tied, so both heaps take the same one. -/
theorem Together.pop (h : task.Together l l') :
    (task.pop .python l.openItems = none ∧ task.pop .rust l'.openItems = none) ∨
    ∃ item rest rest', task.pop .python l.openItems = some (item, rest) ∧
      task.pop .rust l'.openItems = some (item, rest') ∧ rest.Perm rest' := by
  have hperm := h.openItems
  cases hp : task.heapq.pop l.openItems with
  | none =>
    left
    refine ⟨hp, task.binaryHeap.pop_eq_none.mpr ?_⟩
    rw [task.heapq.pop_eq_none.mp hp] at hperm
    exact hperm.nil_eq.symm
  | some x =>
    obtain ⟨item, rest⟩ := x
    have hrest := task.heapq.pop_perm hp
    cases hq : task.binaryHeap.pop l'.openItems with
    | none =>
      rw [task.binaryHeap.pop_eq_none.mp hq] at hperm
      exact absurd (hperm.symm.trans hrest) (by simp)
    | some y =>
      obtain ⟨item', rest'⟩ := y
      have hrest' := task.binaryHeap.pop_perm hq
      have hboth : (item :: rest).Perm (item' :: rest') := hrest.symm.trans (hperm.trans hrest')
      have heq : item = item' := by
        by_contra hne
        have hmem : item' ∈ rest := by
          have := hboth.mem_iff.mpr List.mem_cons_self
          exact (List.mem_cons.mp this).resolve_left (Ne.symm hne)
        have hmem' : item ∈ rest' := by
          have := hboth.mem_iff.mp List.mem_cons_self
          exact (List.mem_cons.mp this).resolve_left hne
        have hle := task.heapq.pop_least hp item' hmem
        have hle' := task.binaryHeap.pop_least hq item hmem'
        rw [SearchItem.lt_eq_key, decide_eq_false_iff_not, not_lt] at hle
        rw [SearchItem.precedes_eq_key, decide_eq_false_iff_not, not_lt] at hle'
        have hkey := le_antisymm hle hle'
        have hidx : item.idx = item'.idx := by
          simp only [SearchItem.key, toLex_inj, Prod.mk.injEq] at hkey
          exact hkey.2.2
        refine hne (List.inj_on_of_nodup_map h.numbered.1 ?_ ?_ hidx)
        · exact hrest.mem_iff.mpr List.mem_cons_self
        · exact hrest.mem_iff.mpr (List.mem_cons_of_mem _ hmem)
      subst heq
      exact .inr ⟨item, rest, rest', hp, hq, List.perm_cons item |>.mp hboth⟩

/-- An expansion ends both searches, with the same path, or neither. -/
theorem Together.expand (hpass : task.dedup.PassesFirstGoal task.ss.Reached task.isEarlyGoal)
    (h : task.Together l l') (hs : task.ss.Reached s) :
    Sum.LiftRel (· = ·) task.Together (task.expand .python s l) (task.expand .rust s l') := by
  obtain ⟨given, hgiven, hgoalless⟩ := h.recorded
  have hstore' : l'.store = task.dedup.after given := h.store.symm.trans hgiven
  have hstates : ∀ t ∈ (task.ss.getSuccessorStates l.world s).1, task.ss.Reached t :=
    fun t ht => .successor hs ht
  simp only [SearchTask.expand, ← h.world]
  rw [expandEach_eq_collect hpass (by exact hstore') hgoalless hstates]
  dsimp only
  rw [← h.store]
  cases hc : task.collect l.store (task.ss.getSuccessorStates l.world s).1 with
  | inl p => exact .inl rfl
  | inr c =>
    obtain ⟨fresh, store⟩ := c
    obtain ⟨hst, hsub, hrest⟩ := collect_inr hc
    have hstored : task.Together
        { l with store := store, world := (task.ss.getSuccessorStates l.world s).2 }
        { l' with store := store, world := (task.ss.getSuccessorStates l.world s).2 } := by
      refine ⟨h.openItems, rfl, rfl, h.expandedStates, h.generatedStates, h.numbered, h.reached,
        given ++ (task.ss.getSuccessorStates l.world s).1, ?_, ?_⟩
      · rw [hst, hgiven, DedupStore.after, ← List.foldl_append]
        rfl
      · intro t ht
        rcases List.mem_append.mp ht with ht | ht
        · exact hgoalless t ht
        · exact ⟨hstates t ht, hrest t ht⟩
    exact .inr (hstored.foldl_push fun t ht => hstates t (hsub ht))

/-- One iteration keeps the two loops together, or ends both alike. -/
theorem Together.step (hpass : task.dedup.PassesFirstGoal task.ss.Reached task.isEarlyGoal)
    (h : task.Together l l') :
    Sum.LiftRel (· = ·) task.Together (task.step .python l) (task.step .rust l') := by
  rcases h.pop with ⟨hp, hq⟩ | ⟨item, rest, rest', hp, hq, hperm⟩
  · simp only [SearchTask.step, hp, hq, h.expandedStates]
    exact .inl rfl
  · have hrest := task.heapq.pop_perm hp
    have hpopped : task.Together { l with openItems := rest, expandedStates := l.expandedStates + 1 }
        { l' with openItems := rest', expandedStates := l'.expandedStates + 1 } := by
      refine ⟨hperm, h.store, h.world, congrArg (· + 1) h.expandedStates, h.generatedStates, ⟨?_, ?_⟩,
        ?_, h.recorded⟩
      · have hnodup := (hrest.map SearchItem.idx).nodup_iff.mp h.numbered.1
        exact (List.nodup_cons.mp hnodup).2
      · exact fun i hi => h.numbered.2 i (hrest.mem_iff.mpr (List.mem_cons_of_mem _ hi))
      · exact fun i hi => h.reached i (hrest.mem_iff.mpr (List.mem_cons_of_mem _ hi))
    have hitem := h.reached item (hrest.mem_iff.mpr List.mem_cons_self)
    simp only [SearchTask.step, hp, hq, ← h.expandedStates]
    split_ifs with hlim hg
    · exact .inl rfl
    · exact .inl rfl
    · rw [← h.expandedStates] at hpopped
      exact Exploration.liftRel_map (fun h => by rw [h]) (hpopped.expand hpass hitem)

omit [AddCommMagma K] [Sub K] [Mul K] [One K] in
theorem passesFirstGoal_isEarlyGoal
    (hpass : task.earlyTermination = true →
      task.dedup.PassesFirstGoal task.ss.Reached task.ss.goalReached) :
    task.dedup.PassesFirstGoal task.ss.Reached task.isEarlyGoal := by
  intro given s hgiven hr hs
  cases he : task.earlyTermination with
  | false => simp [isEarlyGoal, he] at hs
  | true =>
    simp only [isEarlyGoal, he, Bool.true_and] at hgiven hs
    exact hpass he given s hgiven hr hs

omit [AddCommMagma K] [Sub K] [Mul K] [One K] in
theorem start_together : Sum.LiftRel (· = ·) task.Together task.start task.start := by
  rw [start]
  cases hi : task.ss.initialState with
  | none => exact .inl rfl
  | some x =>
    obtain ⟨init, world⟩ := x
    dsimp only
    split_ifs with hg
    · exact .inl rfl
    · cases task.heuristic init with
      | none => exact .inl rfl
      | some h =>
        refine .inr ⟨.refl _, rfl, rfl, rfl, rfl, ⟨by simp, by simp⟩, ?_, [init], rfl, ?_⟩
        · simpa using AbstractSpace.Reached.initial hi
        · simpa using And.intro (AbstractSpace.Reached.initial hi) hg

theorem run_together
    (hpass : task.earlyTermination = true →
      task.dedup.PassesFirstGoal task.ss.Reached task.ss.goalReached) (n : ℕ) :
    Sum.LiftRel (· = ·) task.Together (task.run .python n) (task.run .rust n) :=
  Exploration.iterate_liftRel (fun h => h.step (passesFirstGoal_isEarlyGoal hpass)) start_together

/-- The two searches answer alike, at the same iteration, and until then they
hold the same items and have expanded as many states. -/
theorem cores_explore_alike (task : SearchTask σ π K)
    (hpass : task.earlyTermination = true →
      task.dedup.PassesFirstGoal task.ss.Reached task.ss.goalReached) (n : ℕ) :
    (∀ r, task.run .python n = .inl r ↔ task.run .rust n = .inl r) ∧
      ∀ l, task.run .python n = .inr l → ∃ l', task.run .rust n = .inr l' ∧ task.Together l l' := by
  cases hp : task.run .python n with
  | inl r =>
    have h := run_together hpass n
    rw [hp] at h
    cases hr : task.run .rust n with
    | inl r' =>
      rw [hr, Sum.liftRel_inl_inl] at h
      simp [h]
    | inr l' => simp [hr] at h
  | inr l =>
    have h := run_together hpass n
    rw [hp] at h
    cases hr : task.run .rust n with
    | inl r' => simp [hr] at h
    | inr l' =>
      rw [hr, Sum.liftRel_inr_inr] at h
      simp [h]

end SearchTask

open SearchSpace

/-! Searches of the model's own spaces, which records the states it visits. -/

section Visited

variable [Callables]

def spaceOf (ss : SearchSpace) (tn : DeltaSimpleTemporalNetwork) (relevantActions : List Action)
    (counter : ℕ) : AbstractSpace State (List Action) ℚ where
  World := ℕ
  initialState := (ss.initial tn counter).map (·, initialCounter ss counter)
  getSuccessorStates := fun counter s => ss.getSuccessorStates tn counter s relevantActions
  goalReached := ss.goalReached
  extractPath := extractPath
  g := fun s => s.g
  todoLength := fun s => s.todo.entries.length

def VisitedStates.dedupStore (ss : SearchSpace) (tn : DeltaSimpleTemporalNetwork)
    (weakEquality : Bool) : DedupStore State where
  Store := VisitedStates
  empty := ⟨[], []⟩
  insertNew := fun v s => (!v.isRedundant ss tn weakEquality s, v.insert ss tn weakEquality s)

variable {ss : SearchSpace} {tn : DeltaSimpleTemporalNetwork} {relevantActions : List Action}
  {counter : ℕ} {s t : State}

theorem classical_of_reached (ht : ¬ ss.isTemporal = true)
    (h : (spaceOf ss tn relevantActions counter).Reached s) : s.Classical := by
  induction h with
  | initial hi =>
    obtain ⟨s₀, h₀, heq⟩ := Option.map_eq_some_iff.mp hi
    exact (Prod.mk.inj heq).1 ▸ (classical_initial ht h₀).1
  | successor _ hs ih =>
    obtain ⟨a, -, hstep⟩ := (mem_getSuccessorStates ht).mp hs
    obtain ⟨-, A, -, rfl⟩ := (step_classical ht ih).mp hstep
    exact ih.after _ _ A

/-- States with one representation are goals alike. -/
theorem goalReached_of_sameRepresentation
    (hs : (spaceOf ss tn relevantActions counter).Reached s)
    (ht : (spaceOf ss tn relevantActions counter).Reached t)
    (h : sameRepresentation ss s t = true) : ss.goalReached s = ss.goalReached t := by
  by_cases htemp : ss.isTemporal = true
  · rw [sameRepresentation, if_pos htemp, State.weakEq] at h
    simp only [Bool.and_eq_true, decide_eq_true_eq] at h
    obtain ⟨⟨hlen, has⟩, -⟩ := h
    have hidle : s.todo.entries.isEmpty = t.todo.entries.isEmpty := by
      rw [Bool.eq_iff_iff, List.isEmpty_iff_length_eq_zero, List.isEmpty_iff_length_eq_zero, hlen]
    rw [SearchSpace.goalReached, SearchSpace.goalReached, hidle, has]
  · rw [sameRepresentation, if_neg htemp, State.eq, Bool.and_eq_true, decide_eq_true_eq] at h
    rw [goalReached_classical (classical_of_reached htemp hs),
      goalReached_classical (classical_of_reached htemp ht), h.2]

/-- The store of visited states refuses a goal only because of another goal. -/
theorem VisitedStates.passesFirstGoal (weakEquality : Bool) :
    (VisitedStates.dedupStore ss tn weakEquality).PassesFirstGoal
      (spaceOf ss tn relevantActions counter).Reached ss.goalReached := by
  intro given s hgiven hs hg
  have hrec : VisitedStates.Records tn given (VisitedStates.ofStates ss tn weakEquality given) :=
    VisitedStates.records_ofStates given
  by_contra hnew
  have hred : (VisitedStates.ofStates ss tn weakEquality given).isRedundant ss tn weakEquality s = true :=
    eq_true_of_ne_false fun h => hnew (congrArg not h)
  obtain ⟨t, ht, hsame, -⟩ := hrec.discards hred
  have := goalReached_of_sameRepresentation (hgiven t ht).1 hs hsame
  rw [(hgiven t ht).2, hg] at this
  contradiction

end Visited

/-- `wastar_search` of the model's own spaces. -/
def wastarTask [Callables] (ss : SearchSpace) (tn : DeltaSimpleTemporalNetwork)
    (relevantActions : List Action) (counter : ℕ) (heuristic : State → Option ℚ) (weight : ℚ)
    (earlyTermination weakEquality : Bool) : SearchTask State (List Action) ℚ where
  ss := spaceOf ss tn relevantActions counter
  heuristic := heuristic
  weight := weight
  dedup := VisitedStates.dedupStore ss tn weakEquality
  heapq := .ofKey (SearchItem.key _) (SearchItem.lt_eq_key _)
  binaryHeap := .ofKey (SearchItem.key _) (SearchItem.precedes_eq_key _)
  maxExpandedStates := none
  earlyTermination := earlyTermination

/-- On the model's own spaces nothing parts the two cores. -/
theorem wastar_together [Callables] (ss : SearchSpace) (tn : DeltaSimpleTemporalNetwork)
    (relevantActions : List Action) (counter : ℕ) (heuristic : State → Option ℚ) (weight : ℚ)
    (earlyTermination weakEquality : Bool) (n : ℕ) :
    let task := wastarTask ss tn relevantActions counter heuristic weight earlyTermination weakEquality
    Sum.LiftRel (· = ·) task.Together (task.run .python n) (task.run .rust n) :=
  SearchTask.run_together (fun _ => VisitedStates.passesFirstGoal weakEquality) n

section Switch

attribute [local instance] Callables.empty

theorem cores_explore_alike_switch :
    let task := wastarTask switch .free [⟨0⟩] 0 (fun _ => some 0) (1 / 2) true false
    ∀ r, task.run .python 1 = .inl r ↔ task.run .rust 1 = .inl r :=
  (SearchTask.cores_explore_alike (wastarTask switch .free [⟨0⟩] 0 (fun _ => some 0) (1 / 2) true false)
    (fun _ => VisitedStates.passesFirstGoal false) 1).1

end Switch

/-- A step from `false` to the goal `true`, with a filter of a single bit. -/
def filteredTask : SearchTask Bool Unit ℚ where
  ss :=
    { World := Unit
      initialState := some (false, ())
      getSuccessorStates := fun _ s => (if s then [] else [true], ())
      goalReached := id
      extractPath := fun _ => ()
      g := fun s => if s then 1 else 0
      todoLength := fun _ => 0 }
  heuristic := fun _ => some 0
  weight := 1 / 2
  dedup :=
    { Store := Bool
      empty := false
      insertNew := fun bit _ => (!bit, true) }
  heapq := .ofKey (SearchItem.key _) (SearchItem.lt_eq_key _)
  binaryHeap := .ofKey (SearchItem.key _) (SearchItem.precedes_eq_key _)
  maxExpandedStates := none
  earlyTermination := true

/-- The filter takes the goal for the initial state: one core has tested it by
then, the other drops it untested. -/
theorem filter_parts_cores : filteredTask.run .python 2 = .inl (.path () 1) ∧
    filteredTask.run .rust 2 = .inl (.noPath 1) := ⟨rfl, rfl⟩

end TamerLite
