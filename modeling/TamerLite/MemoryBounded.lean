import TamerLite.BloomKey
import TamerLite.SearchCores

/-! The memory-bounded priority searches: an open list that keeps a number of least items, and
a filter in place of the table of visited states. Until one of them loses something, they
follow the search that forgets nothing. -/

namespace TamerLite

open SearchSpace

/-! ### The bounded queue -/

/-- A heap that is read at both ends. -/
structure MinMaxHeap {α : Type} (lt : α → α → Bool) extends PriorityQueue lt where
  popMax : List α → Option (α × List α)
  popMax_eq_none : ∀ {q}, popMax q = none ↔ q = []
  popMax_perm : ∀ {q x rest}, popMax q = some (x, rest) → q.Perm (x :: rest)
  popMax_greatest : ∀ {q x rest}, popMax q = some (x, rest) → ∀ y ∈ rest, lt x y = false

section Heaps

variable {α : Type} {lt : α → α → Bool} {q l l' : List α} {x y : α}

/-- `_BoundedPriorityQueue.push`: at capacity the largest item makes room for a smaller one. -/
def MinMaxHeap.pushWithin (h : MinMaxHeap lt) (bound : ℕ) (q : List α) (x : α) : List α :=
  if q.length < bound then x :: q
  else
    match h.popMax q with
    | none => q
    | some (largest, rest) => if lt x largest then x :: rest else q

theorem MinMaxHeap.pushWithin_of_lt (h : MinMaxHeap lt) {bound : ℕ} (hq : q.length < bound) :
    h.pushWithin bound q x = x :: q := if_pos hq

theorem MinMaxHeap.mem_pushWithin {h : MinMaxHeap lt} {bound : ℕ} (hy : y ∈ h.pushWithin bound q x) :
    y = x ∨ y ∈ q := by
  rw [pushWithin] at hy
  by_cases hlt : q.length < bound
  · rw [if_pos hlt] at hy
    exact List.mem_cons.mp hy
  rw [if_neg hlt] at hy
  cases hp : h.popMax q with
  | none =>
    rw [hp] at hy
    exact .inr hy
  | some p =>
    rw [hp] at hy
    dsimp only at hy
    by_cases hx : lt x p.1 = true
    · rw [if_pos hx] at hy
      have hperm := h.popMax_perm hp
      exact (List.mem_cons.mp hy).imp_right fun hy => hperm.mem_iff.mpr (List.mem_cons_of_mem _ hy)
    · rw [if_neg hx] at hy
      exact .inr hy

theorem MinMaxHeap.length_pushWithin (h : MinMaxHeap lt) (bound : ℕ) (q : List α) (x : α) :
    (h.pushWithin bound q x).length ≤ q.length + 1 := by
  rw [pushWithin]
  by_cases hlt : q.length < bound
  · rw [if_pos hlt, List.length_cons]
  rw [if_neg hlt]
  cases hp : h.popMax q with
  | none => exact Nat.le_succ _
  | some p =>
    have hlen := (h.popMax_perm hp).length_eq
    rw [List.length_cons] at hlen
    dsimp only
    by_cases hx : lt x p.1 = true
    · rw [if_pos hx, List.length_cons]
      omega
    · rw [if_neg hx]
      omega

/-- Nothing is kept beyond the bound. -/
theorem MinMaxHeap.length_pushWithin_le {h : MinMaxHeap lt} {bound : ℕ} (hq : q.length ≤ bound) :
    (h.pushWithin bound q x).length ≤ bound := by
  rw [pushWithin]
  by_cases hlt : q.length < bound
  · rw [if_pos hlt, List.length_cons]
    omega
  rw [if_neg hlt]
  cases hp : h.popMax q with
  | none => exact hq
  | some p =>
    have hlen := (h.popMax_perm hp).length_eq
    rw [List.length_cons] at hlen
    dsimp only
    by_cases hx : lt x p.1 = true
    · rw [if_pos hx, List.length_cons]
      omega
    · rw [if_neg hx]
      exact hq

/-- Two heaps that hold the same items, no two of them tied, take the same one. -/
theorem PriorityQueue.pop_same (h h' : PriorityQueue lt) (hperm : l.Perm l')
    (htotal : ∀ x ∈ l, ∀ y ∈ l, x ≠ y → lt x y = true ∨ lt y x = true) :
    (h.pop l = none ∧ h'.pop l' = none) ∨ ∃ x rest rest',
      h.pop l = some (x, rest) ∧ h'.pop l' = some (x, rest') ∧ rest.Perm rest' := by
  cases hp : h.pop l with
  | none =>
    left
    rw [h.pop_eq_none.mp hp] at hperm
    exact ⟨rfl, h'.pop_eq_none.mpr hperm.nil_eq.symm⟩
  | some p =>
    right
    have hrest := h.pop_perm hp
    cases hp' : h'.pop l' with
    | none =>
      rw [h'.pop_eq_none.mp hp'] at hperm
      have := hperm.symm.trans hrest
      simp at this
    | some p' =>
      have hrest' := h'.pop_perm hp'
      have hboth : (p.1 :: p.2).Perm (p'.1 :: p'.2) := hrest.symm.trans (hperm.trans hrest')
      have heq : p'.1 = p.1 := by
        by_contra hne
        have hmem : p'.1 ∈ p.2 := (List.mem_cons.mp (hboth.mem_iff.mpr List.mem_cons_self)).resolve_left hne
        have hmem' : p.1 ∈ p'.2 :=
          (List.mem_cons.mp (hboth.mem_iff.mp List.mem_cons_self)).resolve_left (Ne.symm hne)
        have hle := h.pop_least hp p'.1 hmem
        have hle' := h'.pop_least hp' p.1 hmem'
        have hx := hrest.mem_iff.mpr (List.mem_cons_self (a := p.1) (l := p.2))
        have hy := hrest.mem_iff.mpr (List.mem_cons_of_mem p.1 hmem)
        rcases htotal _ hy _ hx hne with hlt | hlt
        · exact Bool.false_ne_true (hle.symm.trans hlt)
        · exact Bool.false_ne_true (hle'.symm.trans hlt)
      refine ⟨p.1, p.2, p'.2, rfl, ?_, ?_⟩
      · rw [← heq]
      · rw [heq] at hboth
        exact (List.perm_cons _).mp hboth

end Heaps

/-- Items are numbered, and no two with different numbers are tied. -/
structure SearchStrategy.Numbered {V : Type} (st : SearchStrategy V) where
  idx : st.Item → ℕ
  idx_root : ∀ m s h, idx (st.root m s h).1 = 0
  idx_child : ∀ m i s h k, idx (st.child m i s h k).1 = k
  total : ∀ i j, idx i ≠ idx j → st.lt i j = true ∨ st.lt j i = true

/-! ### The search -/

/-- The variables of the loop. -/
structure BoundedLoop {V : Type} (st : SearchStrategy V) (S : Type) where
  openItems : List st.Item
  store : S
  counter : ℕ
  expandedStates : ℕ
  generatedStates : ℕ
  memory : st.Memory

/-- The arguments of a search; `ps` says what it shares with the search that is not bounded. -/
structure BoundedSearch (V : Type) where
  ps : PrioritySearch V
  dedup : DedupStore State
  heap : MinMaxHeap ps.st.lt
  bound : ℕ
  bound_pos : 0 < bound

namespace BoundedSearch

variable {V : Type} (bs : BoundedSearch V)

section

variable [Callables]

abbrev Loop : Type := BoundedLoop bs.ps.st bs.dedup.Store

/-- Evaluates a candidate and hands it to the queue unless the heuristic gives it up. -/
def push (parent : bs.ps.st.Item) (l : bs.Loop) (s : State) : bs.Loop :=
  match bs.ps.heuristic s with
  | none => { l with generatedStates := l.generatedStates + 1 }
  | some h =>
    let made := bs.ps.st.child l.memory parent s h l.generatedStates
    { l with
      openItems := bs.heap.pushWithin bs.bound l.openItems made.1
      memory := made.2
      generatedStates := l.generatedStates + 1 }

/-- The Python loop over the successors, before any evaluation. -/
def collect (store : bs.dedup.Store) : List State → Except (List Action) (List State × bs.dedup.Store)
  | [] => .ok ([], store)
  | s :: states =>
    if bs.ps.isEarlyGoal s then .error (extractPath s)
    else
      let inserted := bs.dedup.insertNew store s
      (collect inserted.2 states).map fun c => (if inserted.1 then s :: c.1 else c.1, c.2)

/-- The Rust loop over the successors, which evaluates each new one at once. -/
def expandEach (parent : bs.ps.st.Item) (l : bs.Loop) : List State → Except (List Action) bs.Loop
  | [] => .ok l
  | s :: states =>
    let inserted := bs.dedup.insertNew l.store s
    let l := { l with store := inserted.2 }
    if inserted.1 then
      if bs.ps.isEarlyGoal s then .error (extractPath s)
      else expandEach parent (bs.push parent l s) states
    else expandEach parent l states

/-- One expansion, after the popped item was found not to end the search. -/
def expand (core : Core) (item : bs.ps.st.Item) (l : bs.Loop) : Except (List Action) bs.Loop :=
  let successors := bs.ps.ss.getSuccessorStates bs.ps.tn l.counter (bs.ps.st.stateOf item)
    bs.ps.relevantActions
  let l := { l with counter := successors.2 }
  match core with
  | .python => (bs.collect l.store successors.1).map fun c =>
      c.1.foldl (bs.push item) { l with store := c.2, memory := bs.ps.st.beginExpansion l.memory }
  | .rust => bs.expandEach item { l with memory := bs.ps.st.beginExpansion l.memory } successors.1

/-- The loop's body. -/
def step (core : Core) (l : bs.Loop) : SearchOutcome ⊕ bs.Loop :=
  match bs.heap.pop l.openItems with
  | none => .inl .noPath
  | some (item, rest) =>
    if expansionLimitReached l.expandedStates bs.ps.maxExpandedStates then .inl .expansionLimitReached
    else
      let state := bs.ps.st.stateOf item
      if !bs.ps.earlyTermination && bs.ps.ss.goalReached state then .inl (.path (extractPath state))
      else
        match bs.expand core item { l with openItems := rest, expandedStates := l.expandedStates + 1 } with
        | .error path => .inl (.path path)
        | .ok l => .inr l

/-- What comes before the loop, with the id counter at `counter`. -/
def start (counter : ℕ) : SearchOutcome ⊕ bs.Loop :=
  match bs.ps.ss.initial bs.ps.tn counter with
  | none => .inl .noPath
  | some init =>
    let store := (bs.dedup.insertNew bs.dedup.empty init).2
    if bs.ps.isEarlyGoal init then .inl (.path (extractPath init))
    else
      match bs.ps.heuristic init with
      | none => .inl .noPath
      | some h =>
        let made := bs.ps.st.root bs.ps.st.start init h
        .inr ⟨bs.heap.pushWithin bs.bound [] made.1, store, initialCounter bs.ps.ss counter, 0, 1, made.2⟩

/-- The search, cut off after `n` iterations of its loop. -/
def run (core : Core) (counter n : ℕ) : SearchOutcome ⊕ bs.Loop :=
  Exploration.iterate (bs.step core) n (bs.start counter)

end

/-! ### Until something is lost -/

section

variable [Callables]

/-- The filter takes a state for new exactly where the table does. -/
def AnswersAlike (given : List State) (s : State) : Prop :=
  (bs.dedup.insertNew (bs.dedup.after given) s).1 =
    !VisitedStates.isRedundant bs.ps.ss bs.ps.tn bs.ps.weakEquality
      (.ofStates bs.ps.ss bs.ps.tn bs.ps.weakEquality given) s

/-- The states that the loop of the unbounded search has handed to its table so far. -/
inductive Handed (ps : PrioritySearch V) (core : Core) (counter : ℕ) :
    ℕ → List State → PriorityLoop ps.st → Prop
  | start {init : State} {l : PriorityLoop ps.st} (h₀ : ps.ss.initial ps.tn counter = some init)
      (hl : ps.start counter = .inr l) : Handed ps core counter 0 [init] l
  | step {n : ℕ} {given : List State} {l l' : PriorityLoop ps.st} {item : ps.st.Item}
      {rest : List ps.st.Item} (h : Handed ps core counter n given l)
      (hp : ps.queue.pop l.openItems = some (item, rest)) (hs : ps.step core l = .inr l') :
      Handed ps core counter (n + 1) (given ++ (ps.ss.getSuccessorStates ps.tn l.counter
        (ps.st.stateOf item) ps.relevantActions).1) l'

/-- In its first `n` iterations the unbounded search never opens more items than the bound,
and the filter would answer its table's way. -/
def Undisturbed (core : Core) (counter n : ℕ) : Prop :=
  ∀ m ≤ n, ∀ given l, Handed bs.ps core counter m given l → l.openItems.length ≤ bs.bound ∧
    ∀ item rest, bs.ps.queue.pop l.openItems = some (item, rest) → ∀ pre s post,
      (bs.ps.ss.getSuccessorStates bs.ps.tn l.counter (bs.ps.st.stateOf item) bs.ps.relevantActions).1 =
        pre ++ s :: post → bs.AnswersAlike (given ++ pre) s

/-- The two loops hold the same items, and their stores were given the same states. -/
structure Alike (nb : bs.ps.st.Numbered) (given : List State) (l : bs.Loop) (l' : PriorityLoop bs.ps.st) :
    Prop where
  openItems : l.openItems.Perm l'.openItems
  store : l.store = bs.dedup.after given
  dedup : l'.dedup = .ofStates bs.ps.ss bs.ps.tn bs.ps.weakEquality given
  counter : l.counter = l'.counter
  expandedStates : l.expandedStates = l'.expandedStates
  generatedStates : l.generatedStates = l'.generatedStates
  memory : l.memory = l'.memory
  nodup : (l'.openItems.map nb.idx).Nodup
  numbered : ∀ i ∈ l'.openItems, nb.idx i < l'.generatedStates

end

variable {bs} {nb : bs.ps.st.Numbered} {core : Core} {given states : List State} {l m : bs.Loop}
  {l' m' : PriorityLoop bs.ps.st} {item : bs.ps.st.Item} {s : State}

theorem ofStates_concat (given : List State) (s : State) :
    VisitedStates.ofStates bs.ps.ss bs.ps.tn bs.ps.weakEquality (given ++ [s]) =
      (VisitedStates.ofStates bs.ps.ss bs.ps.tn bs.ps.weakEquality given).insert bs.ps.ss bs.ps.tn
        bs.ps.weakEquality s := by
  rw [VisitedStates.ofStates, List.foldl_append]
  rfl

/-- A push that does not find the queue full. -/
theorem Alike.push (h : bs.Alike nb given l l') (item : bs.ps.st.Item) (s : State)
    (hroom : (bs.ps.push item l' s).openItems.length ≤ bs.bound) :
    bs.Alike nb given (bs.push item l s) (bs.ps.push item l' s) := by
  obtain ⟨hopen, hstore, hdedup, hcounter, hexp, hgen, hmem, hnodup, hnum⟩ := h
  rw [PrioritySearch.push] at hroom ⊢
  rw [BoundedSearch.push]
  cases hv : bs.ps.heuristic s with
  | none =>
    exact ⟨hopen, hstore, hdedup, hcounter, hexp, congrArg (· + 1) hgen, hmem, hnodup,
      fun i hi => Nat.lt_succ_of_lt (hnum i hi)⟩
  | some v =>
    rw [hv] at hroom
    dsimp only at hroom ⊢
    rw [List.length_cons, ← hopen.length_eq] at hroom
    have hpush := bs.heap.pushWithin_of_lt (x := (bs.ps.st.child l.memory item s v l.generatedStates).1)
      (Nat.lt_of_succ_le hroom)
    rw [hpush, hmem, hgen]
    refine ⟨hopen.cons _, hstore, hdedup, hcounter, hexp, rfl, rfl, ?_, ?_⟩
    · rw [List.map_cons, List.nodup_cons, nb.idx_child]
      refine ⟨?_, hnodup⟩
      intro hidx
      obtain ⟨i, hi, he⟩ := List.mem_map.mp hidx
      have := hnum i hi
      omega
    · intro i hi
      rcases List.mem_cons.mp hi with rfl | hi
      · rw [nb.idx_child]
        exact Nat.lt_succ_self _
      · exact Nat.lt_succ_of_lt (hnum i hi)

theorem length_push (item : bs.ps.st.Item) (l' : PriorityLoop bs.ps.st) (s : State) :
    l'.openItems.length ≤ (bs.ps.push item l' s).openItems.length := by
  rw [PrioritySearch.push]
  cases bs.ps.heuristic s with
  | none => exact le_rfl
  | some v => exact Nat.le_succ _

theorem length_foldl_push (item : bs.ps.st.Item) (l' : PriorityLoop bs.ps.st) (states : List State) :
    l'.openItems.length ≤ (states.foldl (bs.ps.push item) l').openItems.length := by
  induction states generalizing l' with
  | nil => exact le_rfl
  | cons s states ih => exact (length_push item l' s).trans (ih _)

theorem Alike.foldl_push (h : bs.Alike nb given l l') (item : bs.ps.st.Item) (states : List State)
    (hroom : (states.foldl (bs.ps.push item) l').openItems.length ≤ bs.bound) :
    bs.Alike nb given (states.foldl (bs.push item) l) (states.foldl (bs.ps.push item) l') := by
  induction states generalizing l l' with
  | nil => exact h
  | cons s states ih =>
    apply ih _ hroom
    apply h.push
    exact (length_foldl_push item _ states).trans hroom

theorem store_push (item : bs.ps.st.Item) (l : bs.Loop) (s : State) : (bs.push item l s).store = l.store := by
  rw [push]
  cases bs.ps.heuristic s with
  | none => rfl
  | some v => rfl

theorem dedup_push (item : bs.ps.st.Item) (l' : PriorityLoop bs.ps.st) (s : State) :
    (bs.ps.push item l' s).dedup = l'.dedup := by
  rw [PrioritySearch.push]
  cases bs.ps.heuristic s with
  | none => rfl
  | some v => rfl

/-- The answers after one more state was given. -/
theorem AnswersAlike.tail
    (hans : ∀ pre t post, s :: states = pre ++ t :: post → bs.AnswersAlike (given ++ pre) t) :
    ∀ pre t post, states = pre ++ t :: post → bs.AnswersAlike (given ++ [s] ++ pre) t := by
  intro pre t post he
  rw [List.append_assoc]
  apply hans (s :: pre) t post
  rw [he]
  rfl

theorem AnswersAlike.head
    (hans : ∀ pre t post, s :: states = pre ++ t :: post → bs.AnswersAlike (given ++ pre) t) :
    bs.AnswersAlike given s := by
  have := hans [] s states rfl
  rwa [List.append_nil] at this

variable [Callables]

/-- Where the answers agree, both stores let the same states through. -/
theorem collect_alike (hans : ∀ pre s post, states = pre ++ s :: post → bs.AnswersAlike (given ++ pre) s) :
    bs.collect (bs.dedup.after given) states =
      (VisitedStates.collect bs.ps.ss bs.ps.tn bs.ps.weakEquality bs.ps.isEarlyGoal
        (.ofStates bs.ps.ss bs.ps.tn bs.ps.weakEquality given) states).map
          fun c => (c.1, bs.dedup.after (given ++ states)) := by
  induction states generalizing given with
  | nil =>
    rw [List.append_nil]
    rfl
  | cons s states ih =>
    have hs := hans [] s states rfl
    rw [List.append_nil] at hs
    have hrest : ∀ pre t post, states = pre ++ t :: post → bs.AnswersAlike (given ++ [s] ++ pre) t := by
      intro pre t post he
      rw [List.append_assoc]
      exact hans (s :: pre) t post (by rw [he]; rfl)
    have hnext := ih hrest
    rw [DedupStore.after_append_singleton, ofStates_concat, List.append_assoc] at hnext
    rw [BoundedSearch.collect, VisitedStates.collect]
    by_cases hg : bs.ps.isEarlyGoal s = true
    · rw [if_pos hg, if_pos hg]
      rfl
    rw [if_neg hg, if_neg hg]
    dsimp only
    rw [hnext, hs]
    cases VisitedStates.collect bs.ps.ss bs.ps.tn bs.ps.weakEquality bs.ps.isEarlyGoal
        ((VisitedStates.ofStates bs.ps.ss bs.ps.tn bs.ps.weakEquality given).insert bs.ps.ss bs.ps.tn
          bs.ps.weakEquality s) states with
    | error p => rfl
    | ok c =>
      simp only [Except.map]
      cases VisitedStates.isRedundant bs.ps.ss bs.ps.tn bs.ps.weakEquality
        (.ofStates bs.ps.ss bs.ps.tn bs.ps.weakEquality given) s <;> rfl

theorem length_expandEach (h : bs.ps.expandEach item l' states = .ok m') :
    l'.openItems.length ≤ m'.openItems.length := by
  obtain ⟨-, -, ⟨items, hitems, -⟩, -⟩ := PrioritySearch.expandEach_ok h
  rw [hitems, List.length_append]
  omega

theorem expandEach_error_alike (hl : l.store = bs.dedup.after given)
    (hl' : l'.dedup = .ofStates bs.ps.ss bs.ps.tn bs.ps.weakEquality given)
    (hans : ∀ pre s post, states = pre ++ s :: post → bs.AnswersAlike (given ++ pre) s)
    {p : List Action} (h : bs.ps.expandEach item l' states = .error p) :
    bs.expandEach item l states = .error p := by
  induction states generalizing given l l' with
  | nil =>
    rw [PrioritySearch.expandEach] at h
    contradiction
  | cons s states ih =>
    have hs := AnswersAlike.head hans
    have hrest := AnswersAlike.tail hans
    have hstore : (bs.dedup.insertNew l.store s).2 = bs.dedup.after (given ++ [s]) := by
      rw [DedupStore.after_append_singleton, hl]
    have hdedup : l'.dedup.insert bs.ps.ss bs.ps.tn bs.ps.weakEquality s =
        .ofStates bs.ps.ss bs.ps.tn bs.ps.weakEquality (given ++ [s]) := by
      rw [ofStates_concat, hl']
    rw [AnswersAlike, ← hl, ← hl'] at hs
    rw [PrioritySearch.expandEach] at h
    rw [BoundedSearch.expandEach]
    rw [hs]
    by_cases hr : VisitedStates.isRedundant bs.ps.ss bs.ps.tn bs.ps.weakEquality l'.dedup s = true
    · rw [if_pos hr] at h
      rw [hr, if_neg (by simp)]
      exact ih hstore hdedup hrest h
    rw [if_neg hr] at h
    rw [Bool.not_eq_true] at hr
    rw [hr, if_pos (by simp)]
    by_cases hg : bs.ps.isEarlyGoal s = true
    · rw [if_pos hg] at h ⊢
      obtain rfl := Except.error.inj h
      rfl
    rw [if_neg hg] at h ⊢
    apply ih _ _ hrest h
    · rw [store_push]
      exact hstore
    · rw [dedup_push]
      exact hdedup

/-- A loop that finds room for all that the other opens ends where the other does. -/
theorem Alike.expandEach (h : bs.Alike nb given l l')
    (hans : ∀ pre s post, states = pre ++ s :: post → bs.AnswersAlike (given ++ pre) s)
    (hm' : bs.ps.expandEach item l' states = .ok m') (hroom : m'.openItems.length ≤ bs.bound) :
    ∃ m, bs.expandEach item l states = .ok m ∧ bs.Alike nb (given ++ states) m m' := by
  induction states generalizing given l l' with
  | nil =>
    rw [PrioritySearch.expandEach] at hm'
    obtain rfl := Except.ok.inj hm'
    rw [List.append_nil]
    exact ⟨l, rfl, h⟩
  | cons s states ih =>
    have hs := AnswersAlike.head hans
    have hrest := AnswersAlike.tail hans
    have hgiven : bs.Alike nb (given ++ [s]) { l with store := (bs.dedup.insertNew l.store s).2 }
        { l' with dedup := l'.dedup.insert bs.ps.ss bs.ps.tn bs.ps.weakEquality s } := by
      obtain ⟨hopen, hstore, hdedup, hcounter, hexp, hgen, hmem, hnodup, hnum⟩ := h
      refine ⟨hopen, ?_, ?_, hcounter, hexp, hgen, hmem, hnodup, hnum⟩
      · rw [DedupStore.after_append_singleton, hstore]
      · rw [ofStates_concat, hdedup]
    rw [AnswersAlike, ← h.store, ← h.dedup] at hs
    rw [List.append_cons given s states]
    rw [PrioritySearch.expandEach] at hm'
    rw [BoundedSearch.expandEach]
    rw [hs]
    by_cases hr : VisitedStates.isRedundant bs.ps.ss bs.ps.tn bs.ps.weakEquality l'.dedup s = true
    · rw [if_pos hr] at hm'
      rw [hr, if_neg (by simp)]
      exact ih hgiven hrest hm'
    rw [if_neg hr] at hm'
    rw [Bool.not_eq_true] at hr
    rw [hr, if_pos (by simp)]
    by_cases hg : bs.ps.isEarlyGoal s = true
    · rw [if_pos hg] at hm'
      contradiction
    rw [if_neg hg] at hm' ⊢
    apply ih _ hrest hm'
    apply hgiven.push
    exact (length_expandEach hm').trans hroom

/-- An expansion of the unbounded search that ends it ends the other alike. -/
theorem Alike.expand_error (h : bs.Alike nb given l l')
    (hans : ∀ pre s post, (bs.ps.ss.getSuccessorStates bs.ps.tn l'.counter (bs.ps.st.stateOf item)
      bs.ps.relevantActions).1 = pre ++ s :: post → bs.AnswersAlike (given ++ pre) s)
    {p : List Action} (hp : bs.ps.expand core item l' = .error p) : bs.expand core item l = .error p := by
  cases core with
  | python =>
    rw [PrioritySearch.expand] at hp
    rw [BoundedSearch.expand]
    dsimp only at hp ⊢
    rw [h.counter, h.store, collect_alike hans]
    rw [h.dedup] at hp
    cases hc : VisitedStates.collect bs.ps.ss bs.ps.tn bs.ps.weakEquality bs.ps.isEarlyGoal
        (.ofStates bs.ps.ss bs.ps.tn bs.ps.weakEquality given)
        (bs.ps.ss.getSuccessorStates bs.ps.tn l'.counter (bs.ps.st.stateOf item)
          bs.ps.relevantActions).1 with
    | error q =>
      rw [hc] at hp
      obtain rfl := Except.error.inj hp
      rfl
    | ok c =>
      rw [hc] at hp
      contradiction
  | rust =>
    rw [PrioritySearch.expand] at hp
    rw [BoundedSearch.expand]
    dsimp only at hp ⊢
    rw [h.counter]
    apply expandEach_error_alike _ _ hans hp
    · exact h.store
    · exact h.dedup

/-- An expansion with room for all that it opens. -/
theorem Alike.expand (h : bs.Alike nb given l l')
    (hans : ∀ pre s post, (bs.ps.ss.getSuccessorStates bs.ps.tn l'.counter (bs.ps.st.stateOf item)
      bs.ps.relevantActions).1 = pre ++ s :: post → bs.AnswersAlike (given ++ pre) s)
    (hm' : bs.ps.expand core item l' = .ok m') (hroom : m'.openItems.length ≤ bs.bound) :
    ∃ m, bs.expand core item l = .ok m ∧ bs.Alike nb (given ++ (bs.ps.ss.getSuccessorStates bs.ps.tn
      l'.counter (bs.ps.st.stateOf item) bs.ps.relevantActions).1) m m' := by
  cases core with
  | python =>
    rw [PrioritySearch.expand] at hm'
    rw [BoundedSearch.expand]
    dsimp only at hm' ⊢
    rw [h.counter, h.store, collect_alike hans]
    rw [h.dedup] at hm'
    cases hc : VisitedStates.collect bs.ps.ss bs.ps.tn bs.ps.weakEquality bs.ps.isEarlyGoal
        (.ofStates bs.ps.ss bs.ps.tn bs.ps.weakEquality given)
        (bs.ps.ss.getSuccessorStates bs.ps.tn l'.counter (bs.ps.st.stateOf item)
          bs.ps.relevantActions).1 with
    | error q =>
      rw [hc] at hm'
      contradiction
    | ok c =>
      rw [hc] at hm'
      obtain rfl := Except.ok.inj hm'
      refine ⟨_, rfl, ?_⟩
      apply Alike.foldl_push _ item c.1 hroom
      obtain ⟨hopen, -, -, -, hexp, hgen, hmem, hnodup, hnum⟩ := h
      refine ⟨hopen, rfl, ?_, rfl, hexp, hgen, congrArg bs.ps.st.beginExpansion hmem, hnodup, hnum⟩
      obtain ⟨hc2, -⟩ := VisitedStates.collect_ok hc
      rw [hc2]
      simp [VisitedStates.ofStates, VisitedStates.insertAll, List.foldl_append]
  | rust =>
    rw [PrioritySearch.expand] at hm'
    rw [BoundedSearch.expand]
    dsimp only at hm' ⊢
    rw [h.counter]
    apply Alike.expandEach _ hans hm' hroom
    obtain ⟨hopen, hstore, hdedup, -, hexp, hgen, hmem, hnodup, hnum⟩ := h
    exact ⟨hopen, hstore, hdedup, rfl, hexp, hgen, congrArg bs.ps.st.beginExpansion hmem, hnodup, hnum⟩

/-- While nothing is lost, an iteration does to both loops the same. -/
theorem Alike.step {n k : ℕ} (hund : bs.Undisturbed core k n) {j : ℕ} (hj : j < n)
    (h : bs.Alike nb given l l') (hgiven : Handed bs.ps core k j given l') :
    (∃ r, bs.step core l = .inl r ∧ bs.ps.step core l' = .inl r) ∨ ∃ m m' given', bs.step core l = .inr m ∧
      bs.ps.step core l' = .inr m' ∧ Handed bs.ps core k (j + 1) given' m' ∧ bs.Alike nb given' m m' := by
  obtain ⟨-, hans⟩ := hund j hj.le given l' hgiven
  have htotal : ∀ x ∈ l.openItems, ∀ y ∈ l.openItems, x ≠ y →
      bs.ps.st.lt x y = true ∨ bs.ps.st.lt y x = true := by
    intro x hx y hy hne
    apply nb.total
    intro hidx
    apply hne
    exact List.inj_on_of_nodup_map h.nodup (h.openItems.mem_iff.mp hx) (h.openItems.mem_iff.mp hy) hidx
  rcases bs.heap.pop_same bs.ps.queue h.openItems htotal with ⟨hp, hp'⟩ | ⟨item, rest, rest', hp, hp', hrest⟩
  · left
    refine ⟨.noPath, ?_, ?_⟩
    · rw [BoundedSearch.step, hp]
    · rw [PrioritySearch.step, hp']
  have hitem := hans item rest' hp'
  have hperm := bs.ps.queue.pop_perm hp'
  have halike : bs.Alike nb given { l with openItems := rest, expandedStates := l.expandedStates + 1 }
      { l' with openItems := rest', expandedStates := l'.expandedStates + 1 } := by
    obtain ⟨-, hstore, hdedup, hcounter, hexp, hgen, hmem, hnodup, hnum⟩ := h
    refine ⟨hrest, hstore, hdedup, hcounter, congrArg (· + 1) hexp, hgen, hmem, ?_, ?_⟩
    · exact (List.nodup_cons.mp ((hperm.map nb.idx).nodup_iff.mp hnodup)).2
    · exact fun i hi => hnum i (hperm.mem_iff.mpr (List.mem_cons_of_mem _ hi))
  rw [BoundedSearch.step, hp, PrioritySearch.step, hp']
  dsimp only
  rw [h.expandedStates] at halike ⊢
  by_cases hlimit : expansionLimitReached l'.expandedStates bs.ps.maxExpandedStates = true
  · rw [if_pos hlimit, if_pos hlimit]
    exact .inl ⟨_, rfl, rfl⟩
  rw [if_neg hlimit, if_neg hlimit]
  by_cases hgoal : (!bs.ps.earlyTermination && bs.ps.ss.goalReached (bs.ps.st.stateOf item)) = true
  · rw [if_pos hgoal, if_pos hgoal]
    exact .inl ⟨_, rfl, rfl⟩
  rw [if_neg hgoal, if_neg hgoal]
  cases he : bs.ps.expand core item
      { l' with openItems := rest', expandedStates := l'.expandedStates + 1 } with
  | error p =>
    rw [halike.expand_error hitem he]
    exact .inl ⟨_, rfl, rfl⟩
  | ok m' =>
    have hstep : bs.ps.step core l' = .inr m' := by
      rw [PrioritySearch.step, hp']
      dsimp only
      rw [if_neg hlimit, if_neg hgoal, he]
    have hnext := hgiven.step hp' hstep
    have hroom := (hund (j + 1) hj _ _ hnext).1
    obtain ⟨m, hm, hmm⟩ := halike.expand hitem he hroom
    rw [hm]
    exact .inr ⟨m, m', _, rfl, rfl, hnext, hmm⟩

theorem start_alike (bs : BoundedSearch V) (nb : bs.ps.st.Numbered) (core : Core) (counter : ℕ) :
    (∃ r, bs.start counter = .inl r ∧ bs.ps.start counter = .inl r) ∨ ∃ given l l',
      bs.start counter = .inr l ∧ bs.ps.start counter = .inr l' ∧ Handed bs.ps core counter 0 given l' ∧
        bs.Alike nb given l l' := by
  rw [BoundedSearch.start, PrioritySearch.start]
  cases h₀ : bs.ps.ss.initial bs.ps.tn counter with
  | none => exact .inl ⟨_, rfl, rfl⟩
  | some init =>
    dsimp only
    by_cases hg : bs.ps.isEarlyGoal init = true
    · rw [if_pos hg, if_pos hg]
      exact .inl ⟨_, rfl, rfl⟩
    rw [if_neg hg, if_neg hg]
    cases hv : bs.ps.heuristic init with
    | none => exact .inl ⟨_, rfl, rfl⟩
    | some v =>
      refine .inr ⟨[init], _, _, rfl, rfl, .start h₀ ?_, ?_⟩
      · rw [PrioritySearch.start, h₀]
        dsimp only
        rw [if_neg hg, hv]
      · rw [bs.heap.pushWithin_of_lt bs.bound_pos]
        refine ⟨.rfl, rfl, rfl, rfl, rfl, rfl, rfl, List.nodup_singleton _, ?_⟩
        intro i hi
        rw [List.mem_singleton.mp hi, nb.idx_root]
        exact Nat.one_pos

/-- As long as nothing is lost, the bounded search is where the other is. -/
theorem run_alike (nb : bs.ps.st.Numbered) {counter n : ℕ} (hund : bs.Undisturbed core counter n) {m : ℕ}
    (hm : m ≤ n) : (∃ r, bs.run core counter m = .inl r ∧ bs.ps.run core counter m = .inl r) ∨
      ∃ given l l', bs.run core counter m = .inr l ∧ bs.ps.run core counter m = .inr l' ∧
        Handed bs.ps core counter m given l' ∧ bs.Alike nb given l l' := by
  rw [run, PrioritySearch.run]
  induction m with
  | zero => exact start_alike bs nb core counter
  | succ m ih =>
    rw [Exploration.iterate_succ, Exploration.iterate_succ]
    rcases ih (Nat.le_of_succ_le hm) with ⟨r, hr, hr'⟩ | ⟨given, l, l', hl, hl', hgiven, halike⟩
    · rw [hr, hr']
      exact .inl ⟨r, rfl, rfl⟩
    · rw [hl, hl']
      rcases halike.step hund hm hgiven with hend | ⟨m, m', given', hm, hm', hnext, hmm⟩
      · exact .inl hend
      · exact .inr ⟨given', m, m', hm, hm', hnext, hmm⟩

end BoundedSearch

end TamerLite
