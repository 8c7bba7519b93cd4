import TamerLite.PlanBounds
import TamerLite.PlanValidity
import TamerLite.RaisingExpansion
import TamerLite.TreeSearch

/-! Breadth-first and depth-first search. Neither keeps a record of the states it
has seen, so what they walk over is the tree of the sequences of steps. -/

namespace TamerLite

open SearchSpace TreeSearch

/-- The arguments of `_basic_search`. -/
structure BasicSearch where
  ss : SearchSpace
  tn : DeltaSimpleTemporalNetwork
  relevantActions : List Action
  bfs : Bool
  maxExpandedStates : Option ℕ
  earlyTermination : Bool

/-- The variables of its loop. -/
structure BasicLoop where
  openStates : List State
  counter : ℕ
  expandedStates : ℕ
  generatedStates : ℕ

/-- `popleft` or `pop`. -/
def popOpen (bfs : Bool) (openStates : List State) : Option (State × List State) :=
  if bfs then openStates.head?.map fun s => (s, openStates.tail)
  else openStates.getLast?.map fun s => (s, openStates.dropLast)

namespace BasicSearch

variable [Callables] (b : BasicSearch)

def isEarlyGoal (s : State) : Bool := b.earlyTermination && b.ss.goalReached s

/-- The loop's body. -/
def step (l : BasicLoop) : SearchOutcome ⊕ BasicLoop :=
  match popOpen b.bfs l.openStates with
  | none => .inl .noPath
  | some (state, rest) =>
    if expansionLimitReached l.expandedStates b.maxExpandedStates then .inl .expansionLimitReached
    else if !b.earlyTermination && b.ss.goalReached state then .inl (.path (extractPath state))
    else
      let successors := b.ss.getSuccessorStates b.tn l.counter state b.relevantActions
      match successors.1.find? b.isEarlyGoal with
      | some s => .inl (.path (extractPath s))
      | none => .inr ⟨rest ++ successors.1, successors.2, l.expandedStates + 1,
          l.generatedStates + successors.1.length⟩

/-- What comes before the loop, with the id counter at `counter`. -/
def start (counter : ℕ) : SearchOutcome ⊕ BasicLoop :=
  match b.ss.initial b.tn counter with
  | none => .inl .noPath
  | some init =>
    if b.isEarlyGoal init then .inl (.path (extractPath init))
    else .inr ⟨[init], initialCounter b.ss counter, 0, 1⟩

/-- The search, stopped after `n` turns of its loop. -/
def run (counter n : ℕ) : SearchOutcome ⊕ BasicLoop :=
  Exploration.iterate b.step n (b.start counter)

/-! ### With its exceptions -/

variable (order : ConditionOrder)

/-- The goal test where `when` has the search make it. -/
def tryGoalWhen (when : Bool) (state : State) : Except Unit Bool :=
  if when then b.ss.tryGoalReached state else .ok false

/-- The loop over the successors: an early goal, or all of them and the counter. -/
def trySuccessors (state : State) : ℕ → List Action → Except Unit (State ⊕ List State × ℕ)
  | counter, [] => return .inr ([], counter)
  | counter, a :: relevantActions => do
    let successor ← b.ss.tryGetSuccessorState b.tn order counter state a
    let counter := counterAfter b.ss counter state a
    match successor with
    | none => trySuccessors state counter relevantActions
    | some t =>
      let goal ← b.tryGoalWhen b.earlyTermination t
      if goal then return .inl t
      else
        let rest ← trySuccessors state counter relevantActions
        return rest.map id fun r => (t :: r.1, r.2)

/-- What is done with a state that is popped. -/
def tryExpand (counter : ℕ) (state : State) : Except Unit (State ⊕ List State × ℕ) := do
  let goal ← b.tryGoalWhen (!b.earlyTermination) state
  if goal then return .inl state
  else b.trySuccessors order state counter b.relevantActions

def tryStep (l : BasicLoop) : SearchOutcome ⊕ BasicLoop :=
  match popOpen b.bfs l.openStates with
  | none => .inl .noPath
  | some (state, rest) =>
    if expansionLimitReached l.expandedStates b.maxExpandedStates then .inl .expansionLimitReached
    else
      match b.tryExpand order l.counter state with
      | .error () => .inl .raised
      | .ok (.inl s) => .inl (.path (extractPath s))
      | .ok (.inr (successors, counter)) =>
        .inr ⟨rest ++ successors, counter, l.expandedStates + 1, l.generatedStates + successors.length⟩

/-- What comes before the loop; `ok` has what it goes on with. -/
def tryBegin (counter : ℕ) : Except Unit (SearchOutcome ⊕ BasicLoop) := do
  let init ← b.ss.tryInitial b.tn order counter
  match init with
  | none => return .inl .noPath
  | some init =>
    let goal ← b.tryGoalWhen b.earlyTermination init
    return if goal then .inl (.path (extractPath init)) else .inr ⟨[init], initialCounter b.ss counter, 0, 1⟩

def tryStart (counter : ℕ) : SearchOutcome ⊕ BasicLoop :=
  match b.tryBegin order counter with
  | .error () => .inl .raised
  | .ok x => x

def tryRun (counter n : ℕ) : SearchOutcome ⊕ BasicLoop :=
  Exploration.iterate (b.tryStep order) n (b.tryStart order counter)

end BasicSearch

theorem popOpen_eq_none {bfs : Bool} {q : List State} : popOpen bfs q = none ↔ q = [] := by
  cases bfs <;> simp [popOpen]

theorem popOpen_eq_some {bfs : Bool} {q rest : List State} {s : State} :
    popOpen bfs q = some (s, rest) ↔ q = if bfs then s :: rest else rest ++ [s] := by
  cases bfs with
  | true => cases q <;> simp [popOpen]
  | false =>
    rcases q.eq_nil_or_concat with rfl | ⟨q, t, rfl⟩
    · simp [popOpen]
    · rw [List.concat_eq_append]
      constructor
      · intro h
        obtain ⟨rfl, rfl⟩ : t = s ∧ q = rest := by simpa [popOpen] using h
        rfl
      · intro h
        obtain ⟨rfl, hlast⟩ := List.append_inj' h rfl
        obtain rfl := (List.cons.inj hlast).1
        simp [popOpen]

section Tree

variable [Callables]

/-- What the loop keeps: its states are those their nodes' steps lead to, and
every accepted sequence goes through one of them. -/
structure Searching (b : BasicSearch) (l : BasicLoop) (nodes : List TreeNode) : Prop where
  states : nodes.map Prod.fst = l.openStates
  leads : ∀ n ∈ nodes, Leads b.ss b.tn b.relevantActions n.2 n.1 l.counter
  covers : Covers {as | AcceptedWithin b.ss b.tn true b.relevantActions as} (nodes.map Prod.snd)
  layered : b.bfs = true → Layered (nodes.map Prod.snd)
  goalless : ∀ n ∈ nodes, b.isEarlyGoal n.1 = false

/-- Breadth-first search takes no more steps than it has to. -/
def BasicSearch.Shortest (b : BasicSearch) (as : List Action) : Prop :=
  b.bfs = true → ∀ bs, AcceptedWithin b.ss b.tn true b.relevantActions bs → as.length ≤ bs.length

/-- What the search returns. -/
def BasicSearch.Returns (b : BasicSearch) : SearchOutcome → Prop
  | .path p => ∃ as s d, Leads b.ss b.tn b.relevantActions as s d ∧ b.ss.goalReached s = true ∧
      p = extractPath s ∧ b.Shortest as
  | r => RightAnswer b.ss b.tn b.relevantActions b.maxExpandedStates r

theorem BasicSearch.Returns.right {b : BasicSearch} {r : SearchOutcome} (h : b.Returns r) :
    RightAnswer b.ss b.tn b.relevantActions b.maxExpandedStates r := by
  cases r with
  | path p =>
    obtain ⟨as, s, d, hleads, hg, hp, -⟩ := h
    exact ⟨as, s, d, hleads, hg, hp⟩
  | noPath => exact h
  | expansionLimitReached => exact h
  | raised => exact h

variable {b : BasicSearch} {l l' : BasicLoop} {nodes : List TreeNode} {r : SearchOutcome}

/-- The node whose state is popped. -/
theorem Searching.pop {rest : List State} (h : Searching b l nodes)
    (hpop : popOpen b.bfs l.openStates = some (s, rest)) : ∃ as others,
      nodes.Perm ((s, as) :: others) ∧ others.map Prod.fst = rest ∧
      (b.bfs = true → nodes = (s, as) :: others) := by
  have hq := popOpen_eq_some.mp hpop
  rw [← h.states] at hq
  split_ifs at hq with hbfs
  · obtain ⟨⟨s, as⟩, others, rfl, rfl, hothers⟩ := List.map_eq_cons_iff.mp hq
    exact ⟨as, others, .refl _, hothers, fun _ => rfl⟩
  · obtain ⟨others, last, rfl, hothers, hlast⟩ := List.map_eq_append_iff.mp hq
    obtain ⟨⟨s, as⟩, rfl, rfl⟩ := List.map_eq_singleton_iff.mp hlast
    exact ⟨as, others, List.perm_append_singleton _ _, hothers, fun hb => absurd hb hbfs⟩

/-- An expansion replaces the popped node by at most one node for each relevant action. -/
theorem Searching.step (hx : b.tn.Exact) (h : Searching b l nodes) (hstep : b.step l = .inr l') :
    ∃ s as others new, nodes.Perm ((s, as) :: others) ∧
      (b.bfs = true → nodes = (s, as) :: others) ∧ new.length ≤ b.relevantActions.length ∧
      (∀ n ∈ new, n.2.length = as.length + 1) ∧ l'.expandedStates = l.expandedStates + 1 ∧
      Searching b l' (others ++ new) := by
  rw [BasicSearch.step] at hstep
  cases hpop : popOpen b.bfs l.openStates with
  | none => simp [hpop] at hstep
  | some p =>
    obtain ⟨s, rest⟩ := p
    simp only [hpop] at hstep
    split_ifs at hstep with hlim hgoal
    cases hfind : (b.ss.getSuccessorStates b.tn l.counter s b.relevantActions).1.find? b.isEarlyGoal with
    | some t => simp [hfind] at hstep
    | none =>
      simp only [hfind, Sum.inr.injEq] at hstep
      obtain rfl := hstep
      obtain ⟨as, others, hperm, hothers, hfirst⟩ := h.pop hpop
      have hs : (s, as) ∈ nodes := hperm.mem_iff.mpr List.mem_cons_self
      have hmem : ∀ n ∈ others, n ∈ nodes := fun n hn => hperm.mem_iff.mpr (List.mem_cons_of_mem _ hn)
      obtain ⟨new, hmap, hlen, hd, hnew, hall⟩ := exists_treeNodes hx (h.leads _ hs) fun a ha => ha
      have hnogoal : b.ss.goalReached s = false := by
        have hearly := h.goalless _ hs
        rw [BasicSearch.isEarlyGoal] at hearly
        cases he : b.earlyTermination with
        | true => simpa [he] using hearly
        | false => simpa [he] using hgoal
      refine ⟨s, as, others, new, hperm, hfirst, hlen, fun n hn => (hnew n hn).2, rfl, ?_, ?_, ?_, ?_, ?_⟩
      · rw [List.map_append, hmap, hothers]
      · intro n hn
        rcases List.mem_append.mp hn with hn | hn
        · exact (h.leads n (hmem n hn)).mono hd
        · exact (hnew n hn).1
      · rw [List.map_append]
        refine h.covers.expand (w := as) (hperm.map _) (fun hacc => ?_) fun bs hbs a hpre => ?_
        · rw [(h.leads _ hs).goalReached_iff hx |>.mpr hacc] at hnogoal
          contradiction
        · exact hall bs hbs a (hbs.2 a (hpre.subset (by simp))) hpre
      · intro hb
        have hlay := h.layered hb
        rw [hfirst hb, List.map_cons] at hlay
        rw [List.map_append]
        refine hlay.expand fun w hw => ?_
        obtain ⟨n, hn, rfl⟩ := List.mem_map.mp hw
        exact (hnew n hn).2
      · intro n hn
        rcases List.mem_append.mp hn with hn | hn
        · exact h.goalless n (hmem n hn)
        · have hsucc : n.1 ∈ (b.ss.getSuccessorStates b.tn l.counter s b.relevantActions).1 := by
            rw [← hmap]
            exact List.mem_map_of_mem hn
          simpa using List.find?_eq_none.mp hfind n.1 hsucc

/-- Where the loop ends. -/
theorem Searching.answer (hx : b.tn.Exact) (h : Searching b l nodes) (hstep : b.step l = .inl r) :
    b.Returns r := by
  rw [BasicSearch.step] at hstep
  cases hpop : popOpen b.bfs l.openStates with
  | none =>
    simp only [hpop, Sum.inl.injEq] at hstep
    obtain rfl := hstep
    have hcov := h.covers
    have hnil : nodes = [] := by
      rw [← List.map_eq_nil_iff (f := Prod.fst), h.states]
      exact popOpen_eq_none.mp hpop
    rw [hnil] at hcov
    exact fun as => hcov.exhausted
  | some p =>
    obtain ⟨s, rest⟩ := p
    obtain ⟨as, others, hperm, hothers, hfirst⟩ := h.pop hpop
    have hs : (s, as) ∈ nodes := hperm.mem_iff.mpr List.mem_cons_self
    simp only [hpop] at hstep
    split_ifs at hstep with hlim hgoal
    · obtain rfl := Sum.inl.inj hstep
      intro hmax
      rw [expansionLimitReached, hmax] at hlim
      exact absurd hlim (by simp)
    · obtain rfl := Sum.inl.inj hstep
      rw [Bool.and_eq_true] at hgoal
      refine ⟨as, s, l.counter, h.leads _ hs, hgoal.2, rfl, fun hb bs hbs => ?_⟩
      have hlay := h.layered hb
      have hcov := h.covers
      rw [hfirst hb, List.map_cons] at hlay hcov
      exact hlay.le_goal hcov hbs
    · cases hfind : (b.ss.getSuccessorStates b.tn l.counter s b.relevantActions).1.find? b.isEarlyGoal with
      | none => simp [hfind] at hstep
      | some t =>
        simp only [hfind, Sum.inl.injEq] at hstep
        obtain rfl := hstep
        obtain ⟨new, hmap, -, -, hnew, -⟩ := exists_treeNodes hx (h.leads _ hs) fun a ha => ha
        have ht := List.mem_of_find?_eq_some hfind
        rw [← hmap] at ht
        obtain ⟨n, hn, rfl⟩ := List.mem_map.mp ht
        obtain ⟨hleads, hlen⟩ := hnew n hn
        have hearly := List.find?_some hfind
        rw [BasicSearch.isEarlyGoal, Bool.and_eq_true] at hearly
        refine ⟨n.2, n.1, _, hleads, hearly.2, rfl, fun hb bs hbs => ?_⟩
        have hlay := h.layered hb
        have hcov := h.covers
        have hno : ∀ w ∈ nodes.map Prod.snd, ¬ AcceptedWithin b.ss b.tn true b.relevantActions w := by
          intro w hw hacc
          obtain ⟨m, hm, rfl⟩ := List.mem_map.mp hw
          have hg := h.goalless m hm
          rw [BasicSearch.isEarlyGoal, hearly.1, ((h.leads m hm).goalReached_iff hx).mpr hacc] at hg
          contradiction
        rw [hfirst hb, List.map_cons] at hlay hcov hno
        have hlt := hlay.lt_goal hcov hno hbs
        omega

/-- Before the loop. -/
theorem start_spec (hx : b.tn.Exact) (counter : ℕ) :
    (∃ r, b.start counter = .inl r ∧ b.Returns r ∧ r ≠ .expansionLimitReached) ∨
      ∃ l nodes, b.start counter = .inr l ∧ Searching b l nodes := by
  rw [BasicSearch.start]
  cases h₀ : b.ss.initial b.tn counter with
  | none => exact .inl ⟨_, rfl, fun as => not_accepted_of_initial hx h₀, nofun⟩
  | some init =>
    have hleads : Leads b.ss b.tn b.relevantActions [] init (initialCounter b.ss counter) := .initial h₀
    dsimp only
    split_ifs with hearly
    · rw [BasicSearch.isEarlyGoal, Bool.and_eq_true] at hearly
      exact .inl ⟨_, rfl, ⟨[], init, _, hleads, hearly.2, rfl, fun _ bs _ => Nat.zero_le _⟩, nofun⟩
    · refine .inr ⟨_, [(init, [])], rfl, rfl, ?_, covers_root, fun _ => layered_root, ?_⟩
      · simpa using hleads
      · simpa using hearly

/-- Where the words of the tree are bounded in length, by the tree or by the order the
queue takes them in, the loop ends. -/
theorem Searching.exists_answer (depth : ℕ) (hx : b.tn.Exact) (h : Searching b l nodes)
    (hdepth : ∀ l s as others nodes, Searching b l nodes → nodes.Perm ((s, as) :: others) →
      (b.bfs = true → nodes = (s, as) :: others) → as.length < depth) :
    ∃ n r, Exploration.iterate b.step n (.inr l) = .inl r := by
  let Ranked : BasicLoop → ℕ → Prop := fun l k => ∃ nodes, Searching b l nodes ∧
    k = work b.relevantActions.length depth (nodes.map Prod.snd)
  have hrank : Ranked l _ := ⟨nodes, h, rfl⟩
  refine Exploration.exists_answer_of_rank ?_ hrank
  rintro l l' _ ⟨nodes, h, rfl⟩ hstep
  obtain ⟨s, as, others, new, hperm, hfirst, hlen, hnew, -, h'⟩ := h.step hx hstep
  refine ⟨_, ?_, others ++ new, h', rfl⟩
  rw [List.map_append]
  refine work_expand (w := as) (hperm.map _) (hdepth l s as others nodes h hperm hfirst) ?_ fun v hv => ?_
  · rw [List.length_map]
    exact hlen
  · obtain ⟨n, hn, rfl⟩ := List.mem_map.mp hv
    exact hnew n hn

/-- So it does where the number of expanded states is. -/
theorem Searching.exists_answer_of_limit {limit : ℕ} (hx : b.tn.Exact) (h : Searching b l nodes)
    (hmax : b.maxExpandedStates = some limit) :
    ∃ n r, Exploration.iterate b.step n (.inr l) = .inl r := by
  let Ranked : BasicLoop → ℕ → Prop := fun l k => (∃ nodes, Searching b l nodes) ∧
    k = limit - l.expandedStates
  have hrank : Ranked l _ := ⟨⟨nodes, h⟩, rfl⟩
  refine Exploration.exists_answer_of_rank ?_ hrank
  rintro l l' _ ⟨⟨nodes, h⟩, rfl⟩ hstep
  obtain ⟨s, as, others, new, -, -, -, -, hexp, h'⟩ := h.step hx hstep
  refine ⟨_, ?_, ⟨_, h'⟩, rfl⟩
  have hlim : l.expandedStates < limit := by
    by_contra hlim
    rw [BasicSearch.step] at hstep
    cases hpop : popOpen b.bfs l.openStates with
    | none => simp [hpop] at hstep
    | some p => simp [hpop, expansionLimitReached, hmax, not_lt.mp hlim] at hstep
  omega

namespace BasicSearch

theorem run_returns (hx : b.tn.Exact) {counter n : ℕ} (h : b.run counter n = .inl r) : b.Returns r := by
  rw [run] at h
  rcases start_spec hx counter with ⟨r', hr', hret, -⟩ | ⟨l, nodes, hl, hs⟩
  · rw [hr', Exploration.iterate_inl] at h
    exact Sum.inl.inj h ▸ hret
  · rw [hl] at h
    obtain ⟨m, l', hl', hans⟩ := Exploration.exists_last h
    have hinv : ∀ l l', (∃ nodes, Searching b l nodes) → b.step l = .inr l' →
        ∃ nodes, Searching b l' nodes := by
      rintro l l' ⟨nodes, h⟩ hstep
      obtain ⟨s, as, others, new, -, -, -, -, -, h'⟩ := h.step hx hstep
      exact ⟨_, h'⟩
    obtain ⟨nodes', hs'⟩ := Exploration.iterate_inv hinv ⟨nodes, hs⟩ hl'
    exact hs'.answer hx hans

theorem exists_run_of_loop (hx : b.tn.Exact) (counter : ℕ)
    (hloop : ∀ l nodes, Searching b l nodes → ∃ n r, Exploration.iterate b.step n (.inr l) = .inl r) :
    ∃ n r, b.run counter n = .inl r := by
  rcases start_spec hx counter with ⟨r, hr, -⟩ | ⟨l, nodes, hl, hs⟩
  · exact ⟨0, r, hr⟩
  · obtain ⟨n, r, hr⟩ := hloop l nodes hs
    exact ⟨n, r, by rw [run, hl, hr]⟩

/-! ### Where nothing is raised -/

variable {order : ConditionOrder} {s : State} {counter : ℕ} {as : List Action}

theorem goal_of_try {early g : Bool} (h : b.tryGoalWhen early s = .ok g) :
    (early && b.ss.goalReached s) = g := by
  rw [tryGoalWhen] at h
  cases early with
  | true => exact goalReached_of_try h
  | false => exact Except.ok.inj h

theorem successors_of_try {x : State ⊕ List State × ℕ}
    (h : b.trySuccessors order s counter as = .ok x) :
    let successors := b.ss.getSuccessorStates b.tn counter s as
    (∀ t, x = .inl t → successors.1.find? b.isEarlyGoal = some t) ∧
      ∀ r, x = .inr r → successors.1.find? b.isEarlyGoal = none ∧ r = successors := by
  induction as generalizing counter x with
  | nil =>
    obtain rfl := Except.ok.inj h
    exact ⟨fun _ ht => (by cases ht), fun r hr => ⟨rfl, (Sum.inr.inj hr).symm⟩⟩
  | cons a as ih =>
    obtain ⟨successor, hsucc, h⟩ := bind_eq_ok.mp h
    have hcons : b.ss.getSuccessorStates b.tn counter s (a :: as) =
        (successor.toList ++ (b.ss.getSuccessorStates b.tn (counterAfter b.ss counter s a) s as).1,
          (b.ss.getSuccessorStates b.tn (counterAfter b.ss counter s a) s as).2) := by
      rw [getSuccessorStates, getSuccessorState_of_try hsucc]
      rfl
    rw [hcons]
    cases successor with
    | none => exact ih h
    | some t =>
      obtain ⟨g, hg, h⟩ := bind_eq_ok.mp h
      have hearly : b.isEarlyGoal t = g := goal_of_try hg
      cases g with
      | true =>
        obtain rfl : Sum.inl t = x := Except.ok.inj h
        refine ⟨fun u hu => ?_, fun _ hr => by cases hr⟩
        obtain rfl := Sum.inl.inj hu
        exact List.find?_cons_of_pos hearly
      | false =>
        have hnot : ¬ b.isEarlyGoal t = true := by rw [hearly]; decide
        obtain ⟨rest, hrest, h⟩ := bind_eq_ok.mp h
        obtain ⟨hgoal, hall⟩ := ih hrest
        obtain rfl : rest.map id (fun r => (t :: r.1, r.2)) = x := Except.ok.inj h
        cases rest with
        | inl u =>
          refine ⟨fun v hv => ?_, fun _ hr => by cases hr⟩
          obtain rfl := Sum.inl.inj hv
          exact (List.find?_cons_of_neg hnot).trans (hgoal u rfl)
        | inr r =>
          obtain ⟨hfind, rfl⟩ := hall r rfl
          refine ⟨fun _ ht => (by cases ht), fun r' hr' => ?_⟩
          obtain rfl := Sum.inr.inj hr'
          exact ⟨(List.find?_cons_of_neg hnot).trans hfind, rfl⟩

/-- A turn raises, or it is that of the search. -/
theorem step_of_try {l : BasicLoop} (h : b.tryStep order l ≠ .inl .raised) :
    b.tryStep order l = b.step l := by
  rw [tryStep] at h ⊢
  rw [step]
  cases hpop : popOpen b.bfs l.openStates with
  | none => rfl
  | some p =>
    obtain ⟨s, rest⟩ := p
    rw [hpop] at h
    dsimp only at h ⊢
    by_cases hlim : expansionLimitReached l.expandedStates b.maxExpandedStates = true
    · rw [if_pos hlim, if_pos hlim]
    rw [if_neg hlim] at h
    rw [if_neg hlim, if_neg hlim]
    cases hx : b.tryExpand order l.counter s with
    | error =>
      rw [hx] at h
      exact absurd rfl h
    | ok x =>
      obtain ⟨g, hg, hx⟩ := bind_eq_ok.mp hx
      rw [goal_of_try hg]
      cases g with
      | true =>
        obtain rfl : Sum.inl s = x := Except.ok.inj hx
        rfl
      | false =>
        obtain ⟨hfound, hall⟩ := successors_of_try hx
        cases x with
        | inl t =>
          rw [if_neg Bool.false_ne_true, hfound t rfl]
        | inr r =>
          obtain ⟨hfind, rfl⟩ := hall r rfl
          rw [if_neg Bool.false_ne_true, hfind]

theorem start_of_try (h : b.tryStart order counter ≠ .inl .raised) :
    b.tryStart order counter = b.start counter := by
  rw [tryStart] at h ⊢
  rw [start]
  cases hx : b.tryBegin order counter with
  | error =>
    rw [hx] at h
    exact absurd rfl h
  | ok x =>
    obtain ⟨init, hinit, hx⟩ := bind_eq_ok.mp hx
    rw [initial_of_try hinit]
    cases init with
    | none => exact (Except.ok.inj hx).symm
    | some init =>
      obtain ⟨g, hg, hx⟩ := bind_eq_ok.mp hx
      have hearly : b.isEarlyGoal init = g := goal_of_try hg
      dsimp only
      rw [hearly]
      exact (Except.ok.inj hx).symm

theorem exists_tryGoal (hsafe : NeverRaises b.ss b.tn order b.relevantActions) (early : Bool)
    (hs : ReachableWithin b.ss b.tn true b.relevantActions s counter) :
    ∃ g, b.tryGoalWhen early s = .ok g := by
  cases early with
  | true => exact hsafe.goal hs
  | false => exact ⟨false, rfl⟩

/-- Nothing is raised over the successors of a state that the search reaches. -/
theorem exists_trySuccessors (hsafe : NeverRaises b.ss b.tn order b.relevantActions)
    (hs : ReachableWithin b.ss b.tn true b.relevantActions s counter)
    (has : ∀ a ∈ as, a ∈ b.relevantActions) : ∃ x, b.trySuccessors order s counter as = .ok x := by
  induction as generalizing counter with
  | nil => exact ⟨_, rfl⟩
  | cons a as ih =>
    have ha := has a List.mem_cons_self
    obtain ⟨successor, hsucc⟩ := hsafe.successor hs a ha
    have hle : counter ≤ counterAfter b.ss counter s a := le_counterAfter
    obtain ⟨rest, hrest⟩ := ih (hs.mono hle) fun x hx => has x (List.mem_cons_of_mem a hx)
    cases successor with
    | none => exact ⟨rest, bind_eq_ok.mpr ⟨none, hsucc, hrest⟩⟩
    | some t =>
      obtain ⟨bs, hleads⟩ := reachableWithin_iff.mp hs
      have ht := reachableWithin_iff.mpr ⟨_, hleads.step ha (getSuccessorState_of_try hsucc)⟩
      obtain ⟨g, hg⟩ := exists_tryGoal hsafe b.earlyTermination ht
      cases g with
      | true => exact ⟨.inl t, bind_eq_ok.mpr ⟨some t, hsucc, bind_eq_ok.mpr ⟨true, hg, rfl⟩⟩⟩
      | false => exact ⟨_, bind_eq_ok.mpr ⟨some t, hsucc, bind_eq_ok.mpr
          ⟨false, hg, bind_eq_ok.mpr ⟨rest, hrest, rfl⟩⟩⟩⟩

theorem tryStep_eq (hsafe : NeverRaises b.ss b.tn order b.relevantActions) (h : Searching b l nodes) :
    b.tryStep order l = b.step l := by
  apply step_of_try
  rw [tryStep]
  cases hpop : popOpen b.bfs l.openStates with
  | none => exact nofun
  | some p =>
    obtain ⟨s, rest⟩ := p
    dsimp only
    by_cases hlim : expansionLimitReached l.expandedStates b.maxExpandedStates = true
    · rw [if_pos hlim]
      exact nofun
    rw [if_neg hlim]
    obtain ⟨as, others, hperm, -, -⟩ := h.pop hpop
    have hleads := h.leads _ (hperm.mem_iff.mpr List.mem_cons_self)
    have hs : ReachableWithin b.ss b.tn true b.relevantActions s l.counter :=
      reachableWithin_iff.mpr ⟨as, hleads⟩
    obtain ⟨g, hg⟩ := exists_tryGoal hsafe (!b.earlyTermination) hs
    obtain ⟨x, hx⟩ := exists_trySuccessors hsafe hs fun a ha => ha
    obtain ⟨y, hy⟩ : ∃ y, b.tryExpand order l.counter s = .ok y := by
      cases g with
      | true => exact ⟨.inl s, bind_eq_ok.mpr ⟨true, hg, rfl⟩⟩
      | false => exact ⟨x, bind_eq_ok.mpr ⟨false, hg, hx⟩⟩
    rw [hy]
    cases y with
    | inl t => exact nofun
    | inr r => exact nofun

theorem tryStart_eq (hsafe : NeverRaises b.ss b.tn order b.relevantActions) (counter : ℕ) :
    b.tryStart order counter = b.start counter := by
  apply start_of_try
  rw [tryStart]
  obtain ⟨init, hinit⟩ := hsafe.initial counter
  cases init with
  | none =>
    have hbegin : b.tryBegin order counter = .ok (.inl .noPath) := bind_eq_ok.mpr ⟨none, hinit, rfl⟩
    rw [hbegin]
    exact nofun
  | some init =>
    have hs : ReachableWithin b.ss b.tn true b.relevantActions init (initialCounter b.ss counter) :=
      reachableWithin_iff.mpr ⟨[], .initial (initial_of_try hinit)⟩
    obtain ⟨g, hg⟩ := exists_tryGoal hsafe b.earlyTermination hs
    have hbegin : b.tryBegin order counter = .ok (if g = true then .inl (.path (extractPath init))
        else .inr ⟨[init], initialCounter b.ss counter, 0, 1⟩) :=
      bind_eq_ok.mpr ⟨some init, hinit, bind_eq_ok.mpr ⟨g, hg, rfl⟩⟩
    rw [hbegin]
    cases g with
    | true => exact nofun
    | false => exact nofun

/-- The search with its exceptions is the search, where none is raised. -/
theorem tryRun_eq (hx : b.tn.Exact) (hsafe : NeverRaises b.ss b.tn order b.relevantActions)
    (counter n : ℕ) : b.tryRun order counter n = b.run counter n := by
  rw [tryRun, run, tryStart_eq hsafe]
  rcases start_spec hx counter with ⟨r, hr, -⟩ | ⟨l, nodes, hl, hs⟩
  · rw [hr, Exploration.iterate_inl, Exploration.iterate_inl]
  · rw [hl]
    have hkeep : ∀ l l', (∃ nodes, Searching b l nodes) → b.step l = .inr l' →
        ∃ nodes, Searching b l' nodes := by
      rintro l l' ⟨nodes, h⟩ hstep
      obtain ⟨s, as, others, new, -, -, -, -, -, h'⟩ := h.step hx hstep
      exact ⟨_, h'⟩
    apply Exploration.iterate_congr hkeep
    · rintro l ⟨nodes, h⟩
      exact tryStep_eq hsafe h
    · exact ⟨nodes, hs⟩

/-- Breadth-first search finds a way to a goal in the fewest steps, whenever there is one
and nothing it evaluates raises. -/
theorem bfs_shortest (b : BasicSearch) (order : ConditionOrder) (hx : b.tn.Exact)
    (hsafe : NeverRaises b.ss b.tn order b.relevantActions) (hbfs : b.bfs = true)
    (hmax : b.maxExpandedStates = none)
    (hacc : ∃ as, AcceptedWithin b.ss b.tn true b.relevantActions as) (counter : ℕ) :
    ∃ n as s d, b.tryRun order counter n = .inl (.path (extractPath s)) ∧
      Leads b.ss b.tn b.relevantActions as s d ∧ b.ss.goalReached s = true ∧
      ∀ bs, AcceptedWithin b.ss b.tn true b.relevantActions bs → as.length ≤ bs.length := by
  obtain ⟨as, has⟩ := hacc
  obtain ⟨n, r, hr⟩ := exists_run_of_loop hx counter fun l nodes h =>
    h.exists_answer (as.length + 1) hx fun l s bs others nodes h _ hfirst => by
      have hlay := h.layered hbfs
      have hcov := h.covers
      rw [hfirst hbfs, List.map_cons] at hlay hcov
      have hle := hlay.le_goal hcov has
      exact Nat.lt_succ_of_le hle
  have hret := run_returns hx hr
  rw [← tryRun_eq hx hsafe] at hr
  cases r with
  | path p =>
    obtain ⟨bs, s, d, hleads, hg, rfl, hleast⟩ := hret
    exact ⟨n, bs, s, d, hr, hleads, hg, hleast hbfs⟩
  | noPath => exact absurd has (hret as)
  | expansionLimitReached => exact absurd hmax hret
  | raised => exact absurd hret not_false

/-- Both searches answer rightly whenever they end, and end where the tree is of
bounded depth or a number of expanded states is given. -/
theorem basicSearch_answers (b : BasicSearch) (hx : b.tn.Exact) (counter : ℕ) :
    (∀ n r, b.run counter n = .inl r →
      RightAnswer b.ss b.tn b.relevantActions b.maxExpandedStates r) ∧
    ((b.maxExpandedStates ≠ none ∨ ∃ depth, ∀ as s d,
      Leads b.ss b.tn b.relevantActions as s d → as.length ≤ depth) →
        ∃ n r, b.run counter n = .inl r) := by
  refine ⟨fun n r hr => (run_returns hx hr).right,
    fun hend => exists_run_of_loop hx counter fun l nodes h => ?_⟩
  rcases hend with hmax | ⟨depth, hdepth⟩
  · obtain ⟨limit, hlimit⟩ := Option.ne_none_iff_exists'.mp hmax
    exact h.exists_answer_of_limit hx hlimit
  · refine h.exists_answer (depth + 1) hx fun l s as others nodes h hperm _ => ?_
    have hleads := h.leads _ (hperm.mem_iff.mpr List.mem_cons_self)
    exact Nat.lt_succ_of_le (hdepth _ _ _ hleads)

end BasicSearch

end Tree

section Turn

attribute [local instance] Callables.empty

noncomputable def turnSearch (bfs : Bool) (maxExpandedStates : Option ℕ) : BasicSearch :=
  ⟨turnSpace, .earliest, [⟨0⟩, ⟨1⟩], bfs, maxExpandedStates, false⟩

theorem turn_accepted : AcceptedWithin turnSpace .earliest true [⟨0⟩, ⟨1⟩] [⟨0⟩, ⟨1⟩, ⟨0⟩] := by
  have hx := DeltaSimpleTemporalNetwork.earliest_exact
  have hsch : Schedulable turnSpace turnGoal := fun _ => ⟨turnSchedule, by decide +kernel⟩
  refine ⟨(accepted_iff_runWith hx).mpr ⟨turnStart, turnGoal, rfl, turn_goal, ?_, hsch⟩, by decide⟩
  decide +kernel

theorem basicSearch_answers_turn : ∃ n r, (turnSearch false (some 5)).run 0 n = .inl r ∧
    RightAnswer turnSpace .earliest [⟨0⟩, ⟨1⟩] (some 5) r := by
  obtain ⟨hret, hend⟩ := BasicSearch.basicSearch_answers (turnSearch false (some 5))
    DeltaSimpleTemporalNetwork.earliest_exact 0
  obtain ⟨n, r, hr⟩ := hend (.inl nofun)
  exact ⟨n, r, hr, hret n r hr⟩

end Turn

section Relay

attribute [local instance] Callables.empty

noncomputable def anyOrder : ConditionOrder where
  list s := s.activeConditions.toFinset.toList
  mem_list := by simp

noncomputable def relaySearch : BasicSearch := ⟨relay, .earliest, [⟨0⟩, ⟨1⟩, ⟨2⟩, ⟨3⟩], true, none, false⟩

/-- The three fluents are true or false. -/
def RelayState (A : Assignments) : Prop := ∃ x y z, A = [.bool x, .bool y, .bool z]

theorem relay_event {a : Action} {k : ℕ} {te : Timing × Event} (h : relay.event a k = some te) :
    (∀ x ∈ te.2.conditions :: te.2.startConditions,
      x = [.constant (.bool true)] ∨ x = [.fluent ⟨2⟩] ∨ x = eitherTrue) ∧
    (te.2.effects = [] ∨ ∃ f < 3, ∃ b, te.2.effects = [⟨⟨f⟩, [.constant (.bool b)]⟩]) := by
  have hall : ∀ i < 4, ∀ te ∈ (relay.events ⟨i⟩).getD [],
      (∀ x ∈ te.2.conditions :: te.2.startConditions,
        x = [.constant (.bool true)] ∨ x = [.fluent ⟨2⟩] ∨ x = eitherTrue) ∧
      (te.2.effects = [] ∨ ∃ f < 3, ∃ b, te.2.effects = [⟨⟨f⟩, [.constant (.bool b)]⟩]) := by
    decide +kernel
  obtain ⟨le, hle, hte⟩ := Option.bind_eq_some_iff.mp h
  obtain ⟨i⟩ := a
  have hi : i < 4 := by
    by_contra hi
    obtain ⟨n, rfl⟩ := Nat.exists_eq_add_of_le' (not_lt.mp hi)
    cases hle
  refine hall i hi te ?_
  rw [hle]
  exact List.mem_of_getElem? hte

theorem relay_defined : relay.Defined RelayState where
  initial := ⟨true, false, false, rfl⟩
  timed := nofun
  nested := fun hle => relay_nested hle
  conditions := by
    intro a k te hev x hx A hA
    obtain ⟨f, g, h, rfl⟩ := hA
    rcases (relay_event hev).1 x hx with rfl | rfl | rfl
    · exact ⟨.bool true, rfl⟩
    · exact ⟨.bool h, rfl⟩
    · cases f <;> cases g <;> exact ⟨_, rfl⟩
  effects := by
    intro a k te hev A hA
    obtain ⟨f, g, h, rfl⟩ := hA
    rcases (relay_event hev).2 with heff | ⟨i, hi, b, heff⟩ <;> rw [heff]
    · exact ⟨_, rfl, f, g, h, rfl⟩
    · obtain rfl | rfl | rfl : i = 0 ∨ i = 1 ∨ i = 2 := by omega
      · exact ⟨_, rfl, b, g, h, rfl⟩
      · exact ⟨_, rfl, f, b, h, rfl⟩
      · exact ⟨_, rfl, f, g, b, rfl⟩
  bounds := by
    intro a A _
    obtain ⟨i⟩ := a
    rcases i with _ | _ | _ | _ | i <;> exact ⟨_, rfl⟩
  goal := by
    intro A hA
    obtain ⟨f, g, h, rfl⟩ := hA
    exact ⟨g, rfl⟩

theorem relay_accepted : AcceptedWithin relay .earliest true [⟨0⟩, ⟨1⟩, ⟨2⟩, ⟨3⟩] [⟨0⟩, ⟨1⟩, ⟨2⟩, ⟨0⟩] := by
  have hx := DeltaSimpleTemporalNetwork.earliest_exact
  have hsch : Schedulable relay relayShort := fun _ => ⟨relaySchedule, by decide +kernel⟩
  refine ⟨(accepted_iff_runWith hx).mpr ⟨relayStart, relayShort, rfl, rfl, ?_, hsch⟩, by decide⟩
  decide +kernel

theorem bfs_shortest_relay : ∃ n as s d,
    relaySearch.tryRun anyOrder 0 n = .inl (.path (extractPath s)) ∧
    Leads relay .earliest [⟨0⟩, ⟨1⟩, ⟨2⟩, ⟨3⟩] as s d ∧ relay.goalReached s = true ∧
    ∀ bs, AcceptedWithin relay .earliest true [⟨0⟩, ⟨1⟩, ⟨2⟩, ⟨3⟩] bs → as.length ≤ bs.length := by
  have hsafe : NeverRaises relay .earliest anyOrder [⟨0⟩, ⟨1⟩, ⟨2⟩, ⟨3⟩] :=
    relay_defined.neverRaises .earliest anyOrder fun a ha =>
      Option.isSome_iff_exists.mp ((by decide : ∀ a ∈ ([⟨0⟩, ⟨1⟩, ⟨2⟩, ⟨3⟩] : List Action),
        (relay.events a).isSome = true) a ha)
  exact BasicSearch.bfs_shortest relaySearch anyOrder DeltaSimpleTemporalNetwork.earliest_exact hsafe rfl rfl
    ⟨_, relay_accepted⟩ 0

end Relay

end TamerLite
