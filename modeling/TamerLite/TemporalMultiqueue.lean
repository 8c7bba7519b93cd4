import TamerLite.MultiqueueSearch
import TamerLite.TemporalSearch

/-! The multiqueue search over any search space. A queue only drops a state its
heuristic gives up, so one queue that runs empty is enough to stop. -/

namespace TamerLite

open SearchSpace

section Spaces

namespace MultiqueueSearch

variable {V : Type}

section

variable [Callables]

/-- The nodes of the containers that wait in every queue. -/
def waitingNodes (containers : List TreeNode) (l : MultiqueueLoop V) : Set TreeNode :=
  {n | ∃ c, containers[c]? = some n ∧ c ∉ l.expanded ∧ ∀ q ∈ l.opens, ∃ x ∈ q, x.container = c}

/-- The loop's invariant on any search space. -/
structure Searches (ms : MultiqueueSearch V) (handed containers : List TreeNode)
    (expanded : Set TreeNode) (l : MultiqueueLoop V) : Prop where
  pruned : Pruned ms.ss ms.tn ms.relevantActions ms.weakEquality l.visitedStates l.counter handed
    (waitingNodes containers l) expanded
  handed : ∀ n ∈ containers, n ∈ handed ∧ ms.isEarlyGoal n.1 = false
  length : l.opens.length = ms.heuristics.length
  last : l.last < l.opens.length
  others : ∀ i, l.opens[i]? = some [] → i = l.last
  count : l.containers = containers.length
  flags : ∀ c ∈ l.expanded, c < containers.length
  items : ∀ q ∈ l.opens, ∀ x ∈ q, ∃ n, containers[x.container]? = some n ∧ n.1 = x.state

end

variable {ms : MultiqueueSearch V} {core : Core} {l l' : MultiqueueLoop V} {i : ℕ}
  {handed containers : List TreeNode} {expanded : Set TreeNode} {item : ContainerItem V}
  {q rest : List (ContainerItem V)} {r : SearchOutcome} {n : TreeNode}

/-- A popped container goes on waiting nowhere, the others where they did. -/
theorem Popped.waiting {c : ℕ} (hp : Popped ms l i q rest item) (hc : c ≠ item.container)
    (hall : ∀ q ∈ l.opens, ∃ x ∈ q, x.container = c) :
    ∀ q ∈ l.opens.set i rest, ∃ x ∈ q, x.container = c := by
  intro q' hq'
  rcases List.mem_or_eq_of_mem_set hq' with hq' | rfl
  · exact hall q' hq'
  · obtain ⟨x, hx, hxc⟩ := hall q (List.mem_of_getElem? hp.queue)
    rcases List.mem_cons.mp (hp.pop.mem_iff.mp hx) with rfl | hx
    · exact absurd hxc.symm hc
    · exact ⟨x, hx, hxc⟩

theorem Popped.eq_of_empty (hp : Popped ms l i q rest item) {j : ℕ}
    (hj : (l.opens.set i rest)[j]? = some []) : j = i := by
  by_contra hne
  rw [List.getElem?_set_ne (Ne.symm hne)] at hj
  exact hp.full _ (List.mem_of_getElem? hj) rfl

variable [Callables]

/-- Either core stops when a queue is empty, or pops from one while none is. -/
theorem Searches.step_eq (h : ms.Searches handed containers expanded l) (core : Core)
    (hne : ms.heuristics ≠ []) :
    ([] ∈ l.opens ∧ ms.step core l = .inl .noPath) ∨
    (∃ i q rest item, Popped ms l i q rest item ∧ ms.step core l =
      if item.container ∈ l.expanded then .inr { l with opens := l.opens.set i rest, last := i }
      else ms.expand item { l with opens := l.opens.set i rest, last := i }) := by
  by_cases hempty : [] ∈ l.opens
  · refine .inl ⟨hempty, ?_⟩
    obtain ⟨i, hi⟩ := List.mem_iff_getElem?.mp hempty
    obtain rfl := h.others i hi
    cases core with
    | python =>
      have hany : l.someQueueEmpty = true := List.any_eq_true.mpr ⟨[], hempty, rfl⟩
      rw [MultiqueueSearch.step, hany]
      rfl
    | rust =>
      rw [MultiqueueSearch.step, MultiqueueLoop.lastQueueEmpty, hi]
      rfl
  · have hfull : ∀ q ∈ l.opens, q ≠ [] := by
      rintro q hq rfl
      exact hempty hq
    have hstep : ms.step core l = ms.popAndExpand core l := by
      cases core with
      | python =>
        have hany : l.someQueueEmpty = false := by
          rw [MultiqueueLoop.someQueueEmpty, List.any_eq_false]
          exact fun q hq he => hfull q hq (List.isEmpty_iff.mp he)
        rw [MultiqueueSearch.step, hany]
        rfl
      | rust =>
        have hlt := h.last
        have hlast : l.opens[l.last].isEmpty = false := by
          rw [← Bool.not_eq_true, List.isEmpty_iff]
          exact hfull _ (List.getElem_mem h.last)
        rw [MultiqueueSearch.step, MultiqueueLoop.lastQueueEmpty, List.getElem?_eq_getElem h.last,
          Option.map_some, hlast]
    have hpos : 0 < ms.heuristics.length := List.length_pos_iff.mpr hne
    have hlt : l.statesExpanded % ms.heuristics.length < l.opens.length := by
      rw [h.length]
      exact Nat.mod_lt _ hpos
    have hq := List.getElem?_eq_getElem hlt
    cases hpop : ms.queue.pop l.opens[l.statesExpanded % ms.heuristics.length] with
    | none => exact absurd (ms.queue.pop_eq_none.mp hpop) (hfull _ (List.getElem_mem hlt))
    | some x =>
      refine .inr ⟨_, _, x.2, x.1, ⟨hq, ms.queue.pop_perm hpop, hfull⟩, ?_⟩
      rw [hstep, popAndExpand, switchingPolicy, if_neg hpos.ne']
      simp only [hq, hpop]

/-- A popped item whose container was expanded is skipped. -/
theorem Searches.skip (h : ms.Searches handed containers expanded l) (hp : Popped ms l i q rest item)
    (hc : item.container ∈ l.expanded) :
    ms.Searches handed containers expanded { l with opens := l.opens.set i rest, last := i } := by
  refine ⟨h.pruned.mono ?_, h.handed, by simpa using h.length, by simpa using hp.lt,
    fun j hj => hp.eq_of_empty hj, h.count, h.flags, fun q' hq' x hx => ?_⟩
  · rintro n ⟨c, hn, hce, hall⟩
    exact ⟨c, hn, hce, hp.waiting (fun he => hce (he ▸ hc)) hall⟩
  · obtain ⟨q'', hq'', hx⟩ := hp.mem hq' hx
    exact h.items q'' hq'' x hx

/-- What the loop's variables become when the successors of a popped state are recorded. -/
def handOver (ms : MultiqueueSearch V) (l : MultiqueueLoop V) (item : ContainerItem V) :
    MultiqueueLoop V :=
  let successors := ms.ss.getSuccessorStates ms.tn l.counter item.state ms.relevantActions
  { ms.record l item successors.1 with counter := successors.2 }

/-- An expansion ends the search or records the successors. -/
theorem expand_cases (item : ContainerItem V) (l : MultiqueueLoop V) :
    (ms.expand item l = .inl .expansionLimitReached ∧ ms.maxExpandedStates ≠ none) ∨
    (ms.expand item l = .inl (.path (extractPath item.state)) ∧ ms.ss.goalReached item.state = true) ∨
    (∃ s ∈ (ms.ss.getSuccessorStates ms.tn l.counter item.state ms.relevantActions).1,
      ms.expand item l = .inl (.path (extractPath s)) ∧ ms.ss.goalReached s = true) ∨
    (ms.expand item l = .inr (ms.handOver l item) ∧
      ¬ (!ms.earlyTermination && ms.ss.goalReached item.state) = true ∧
      ∀ s ∈ (ms.ss.getSuccessorStates ms.tn l.counter item.state ms.relevantActions).1,
        ms.isEarlyGoal s = false) := by
  rw [MultiqueueSearch.expand]
  by_cases hlim : expansionLimitReached l.statesExpanded ms.maxExpandedStates = true
  · rw [if_pos hlim]
    exact .inl ⟨rfl, not_expansionLimitReached hlim⟩
  rw [if_neg hlim]
  by_cases hg : (!ms.earlyTermination && ms.ss.goalReached item.state) = true
  · rw [if_pos hg]
    rw [Bool.and_eq_true] at hg
    exact .inr (.inl ⟨rfl, hg.2⟩)
  rw [if_neg hg]
  dsimp only
  cases hc : l.visitedStates.collect ms.ss ms.tn ms.weakEquality ms.isEarlyGoal
      (ms.ss.getSuccessorStates ms.tn l.counter item.state ms.relevantActions).1 with
  | error p =>
    obtain ⟨s, hs, hgs, rfl⟩ := VisitedStates.collect_error hc
    rw [isEarlyGoal, Bool.and_eq_true] at hgs
    exact .inr (.inr (.inl ⟨s, hs, rfl, hgs.2⟩))
  | ok c =>
    obtain ⟨rfl, hearly⟩ := VisitedStates.collect_ok hc
    exact .inr (.inr (.inr ⟨rfl, hg, hearly⟩))

/-- The node of a popped container. -/
theorem Searches.exists_node (h : ms.Searches handed containers expanded l)
    (hp : Popped ms l i q rest item) : ∃ n, containers[item.container]? = some n ∧ n.1 = item.state :=
  h.items q (List.mem_of_getElem? hp.queue) item (hp.pop.mem_iff.mpr List.mem_cons_self)

/-- Recording the successors of a popped state. -/
theorem Searches.handOver (hsafe : PruningSafe ms.ss ms.tn ms.relevantActions ms.weakEquality)
    (hh : ∀ h ∈ ms.heuristics, SeesGoals ms.ss ms.tn ms.relevantActions h.eval)
    (h : ms.Searches handed containers expanded l) (hp : Popped ms l i q rest item)
    (hn : containers[item.container]? = some n) (hstate : n.1 = item.state)
    (hgoal : ms.ss.goalReached n.1 = false)
    (hearly : ∀ s ∈ (ms.ss.getSuccessorStates ms.tn l.counter item.state ms.relevantActions).1,
      ms.isEarlyGoal s = false) : ∃ handed' containers' expanded',
      ms.Searches handed' containers' expanded'
        (ms.handOver { l with opens := l.opens.set i rest, last := i } item) := by
  have hmem := List.mem_of_getElem? hn
  have hlt := (List.getElem?_eq_some_iff.mp hn).1
  obtain ⟨new, fresh, hfresh, hfreshSub, hexpand⟩ := h.pruned.expand hsafe (h.handed n hmem).1 hgoal
  rw [hstate] at hfresh hexpand
  have hleads := (hexpand Set.univ (fun _ _ => .inl trivial) fun _ _ _ _ => trivial).leads
  have hcount : (l.visitedStates.fresh ms.ss ms.tn ms.weakEquality
      (ms.ss.getSuccessorStates ms.tn l.counter item.state ms.relevantActions).1).length = fresh.length := by
    rw [← hfresh, List.length_map]
  refine ⟨handed ++ new, containers ++ fresh, insert n expanded, hexpand _ (fun m hm => ?_)
    (fun m hm k hk => ?_), fun m hm => ?_, ?_, ?_, fun j hj => ?_, ?_, fun c hc => ?_, fun q' hq' x hx => ?_⟩
  · -- a container that waited still does, or was the popped one
    obtain ⟨c, hc, hce, hall⟩ := hm
    by_cases hci : c = item.container
    · rw [hci, hn] at hc
      exact .inr (Option.some.inj hc).symm
    · refine .inl ⟨c, ?_, ?_, fun q' hq' => ?_⟩
      · rw [List.getElem?_append_left (List.getElem?_eq_some_iff.mp hc).1, hc]
      · exact fun hc' => hce ((List.mem_cons.mp hc').resolve_left hci)
      · obtain ⟨g, -, q'', hq'', rfl⟩ := exists_of_mem_zipWith hq'
        obtain ⟨x, hx, hxc⟩ := hp.waiting hci hall q'' hq''
        exact ⟨x, mem_pushCandidates_of_mem hx, hxc⟩
  · -- a goal lies ahead of it, so no heuristic gives it up
    obtain ⟨j, hj⟩ := List.mem_iff_getElem?.mp hm
    refine ⟨containers.length + j, ?_, ?_, fun q' hq' => ?_⟩
    · rw [List.getElem?_append_right (by omega), Nat.add_sub_cancel_left, hj]
    · intro hc
      rcases List.mem_cons.mp hc with hc | hc
      · omega
      · have := h.flags _ hc
        omega
    · obtain ⟨g, hg, q'', hq'', rfl⟩ := exists_of_mem_zipWith hq'
      have hsome := (hh g hg).isSome hsafe.exact (hleads m (hfreshSub m hm)) hk
      have hj' : (l.visitedStates.fresh ms.ss ms.tn ms.weakEquality (ms.ss.getSuccessorStates ms.tn
          l.counter item.state ms.relevantActions).1)[j]? = some m.1 := by
        rw [← hfresh, List.getElem?_map, hj]
        rfl
      obtain ⟨x, hx, hxc, -⟩ := @exists_mem_pushCandidates _ g q'' _ l.containers _ _ hj' hsome
      exact ⟨x, hx, by rw [hxc, h.count]⟩
  · rcases List.mem_append.mp hm with hm | hm
    · exact ⟨List.mem_append_left _ (h.handed m hm).1, (h.handed m hm).2⟩
    · have hms := List.mem_map_of_mem (f := Prod.fst) hm
      rw [hfresh] at hms
      exact ⟨hfreshSub m hm, hearly m.1 (VisitedStates.mem_of_fresh hms)⟩
  · simp [MultiqueueSearch.handOver, record, h.length]
  · simpa [MultiqueueSearch.handOver, record, h.length] using hp.lt
  · obtain ⟨g, q', hg, hq', he⟩ := List.getElem?_zipWith_eq_some.mp hj
    rw [eq_nil_of_pushCandidates he] at hq'
    exact hp.eq_of_empty hq'
  · rw [List.length_append, ← hcount, ← h.count]
    rfl
  · rw [List.length_append]
    rcases List.mem_cons.mp hc with rfl | hc
    · omega
    · have := h.flags c hc
      omega
  · obtain ⟨g, -, q'', hq'', rfl⟩ := exists_of_mem_zipWith hq'
    rcases mem_pushCandidates hx with hx | ⟨j, hj, hc⟩
    · obtain ⟨q₀, hq₀, hx⟩ := hp.mem hq'' hx
      obtain ⟨m, hm, hms⟩ := h.items q₀ hq₀ x hx
      refine ⟨m, ?_, hms⟩
      rw [List.getElem?_append_left (List.getElem?_eq_some_iff.mp hm).1, hm]
    · dsimp only at hj hc
      rw [← hfresh, List.getElem?_map, Option.map_eq_some_iff] at hj
      obtain ⟨m, hm, hms⟩ := hj
      refine ⟨m, ?_, hms⟩
      rw [hc, h.count, List.getElem?_append_right (by omega), Nat.add_sub_cancel_left, hm]

/-- A turn of the loop. -/
theorem Searches.step (hsafe : PruningSafe ms.ss ms.tn ms.relevantActions ms.weakEquality)
    (hne : ms.heuristics ≠ []) (hh : ∀ h ∈ ms.heuristics, SeesGoals ms.ss ms.tn ms.relevantActions h.eval)
    (h : ms.Searches handed containers expanded l) :
    (∃ r, ms.step core l = .inl r ∧ RightAnswer ms.ss ms.tn ms.relevantActions ms.maxExpandedStates r) ∨
      ∃ l' handed' containers' expanded', ms.step core l = .inr l' ∧
        ms.Searches handed' containers' expanded' l' := by
  rcases h.step_eq core hne with ⟨hempty, hstep⟩ | ⟨i, q, rest, item, hp, hstep⟩
  · refine .inl ⟨_, hstep, ?_⟩
    have hnone : waitingNodes containers l = ∅ := by
      refine Set.eq_empty_iff_forall_notMem.mpr ?_
      rintro n ⟨c, -, -, hall⟩
      obtain ⟨x, hx, -⟩ := hall [] hempty
      exact absurd hx List.not_mem_nil
    have hpruned := h.pruned
    rw [hnone] at hpruned
    exact hpruned.noPath
  · by_cases hc : item.container ∈ l.expanded
    · rw [if_pos hc] at hstep
      exact .inr ⟨_, _, _, _, hstep, h.skip hp hc⟩
    · rw [if_neg hc] at hstep
      obtain ⟨n, hn, hstate⟩ := h.exists_node hp
      have hmem := h.handed n (List.mem_of_getElem? hn)
      rcases @expand_cases _ ms _ item { l with opens := l.opens.set i rest, last := i } with
        ⟨he, hmax⟩ | ⟨he, hg⟩ | ⟨s, hs, he, hg⟩ | ⟨he, hg, hearly⟩
      · exact .inl ⟨_, hstep.trans he, hmax⟩
      · exact .inl ⟨_, hstep.trans he, n.2, n.1, _, h.pruned.leads n hmem.1, hstate ▸ hg, by rw [hstate]⟩
      · refine .inl ⟨_, hstep.trans he, h.pruned.path_of_successor hsafe hmem.1 ?_ hg _⟩
        rw [hstate]
        exact hs
      · rw [← hstate] at hg
        obtain ⟨handed', containers', expanded', h'⟩ := h.handOver hsafe hh hp hn hstate
          (goalReached_eq_false hmem.2 hg) hearly
        exact .inr ⟨_, handed', containers', expanded', hstep.trans he, h'⟩

/-- Before the loop. -/
theorem start_searches (hsafe : PruningSafe ms.ss ms.tn ms.relevantActions ms.weakEquality)
    (hne : ms.heuristics ≠ []) (counter : ℕ) :
    (∃ r, ms.start counter = .inl r ∧ RightAnswer ms.ss ms.tn ms.relevantActions ms.maxExpandedStates r) ∨
      ∃ l handed containers expanded, ms.start counter = .inr l ∧
        ms.Searches handed containers expanded l := by
  rw [MultiqueueSearch.start]
  cases h₀ : ms.ss.initial ms.tn counter with
  | none => exact .inl ⟨_, rfl, fun as => not_accepted_of_initial hsafe.exact h₀⟩
  | some init =>
    have hleads : Leads ms.ss ms.tn ms.relevantActions [] init (initialCounter ms.ss counter) := .initial h₀
    dsimp only
    by_cases hearly : ms.isEarlyGoal init = true
    · rw [if_pos hearly]
      rw [isEarlyGoal, Bool.and_eq_true] at hearly
      exact .inl ⟨_, rfl, [], init, _, hleads, hearly.2, rfl⟩
    · rw [if_neg hearly]
      have hqueue : ∀ q ∈ ms.heuristics.map fun _ => [(⟨ms.zero, 0, init⟩ : ContainerItem V)],
          q = [⟨ms.zero, 0, init⟩] := by simp
      refine .inr ⟨_, [(init, [])], [(init, [])], ∅, rfl, .start h₀ ⟨0, rfl, List.not_mem_nil, ?_⟩,
        ?_, ?_, ?_, fun i hi => ?_, rfl, by simp, ?_⟩
      · intro q hq
        exact ⟨_, by rw [hqueue q hq]; exact List.mem_cons_self, rfl⟩
      · simpa using hearly
      · simp
      · simpa using List.length_pos_iff.mpr hne
      · have := hqueue _ (List.mem_of_getElem? hi)
        contradiction
      · intro q hq x hx
        rw [hqueue q hq] at hx
        obtain rfl := List.mem_singleton.mp hx
        exact ⟨_, rfl, rfl⟩

theorem run_right (hsafe : PruningSafe ms.ss ms.tn ms.relevantActions ms.weakEquality)
    (hne : ms.heuristics ≠ []) (hh : ∀ h ∈ ms.heuristics, SeesGoals ms.ss ms.tn ms.relevantActions h.eval)
    (counter n : ℕ) (h : ms.run core counter n = .inl r) :
    RightAnswer ms.ss ms.tn ms.relevantActions ms.maxExpandedStates r := by
  rw [run] at h
  rcases start_searches hsafe hne counter with ⟨r', hr', hright⟩ | ⟨l, handed, containers, expanded, hl, hs⟩
  · rw [hr', Exploration.iterate_inl] at h
    exact Sum.inl.inj h ▸ hright
  · rw [hl] at h
    obtain ⟨m, l', hl', hans⟩ := Exploration.exists_last h
    have hstep : ∀ l l', (∃ handed containers expanded, ms.Searches handed containers expanded l) →
        ms.step core l = .inr l' →
          ∃ handed containers expanded, ms.Searches handed containers expanded l' := by
      rintro l l' ⟨handed, containers, expanded, hs⟩ hl'
      rcases hs.step hsafe hne hh with ⟨r, hr, -⟩ | ⟨l'', h1, h2, h3, hl'', hs'⟩
      · rw [hr] at hl'
        contradiction
      · obtain rfl := Sum.inr.inj (hl''.symm.trans hl')
        exact ⟨h1, h2, h3, hs'⟩
    obtain ⟨handed', containers', expanded', hs'⟩ :=
      Exploration.iterate_inv hstep ⟨handed, containers, expanded, hs⟩ hl'
    rcases hs'.step hsafe hne hh with ⟨r', hr', hright⟩ | ⟨l'', h1, h2, h3, hl'', -⟩
    · obtain rfl := Sum.inl.inj (hr'.symm.trans hans)
      exact hright
    · rw [hl''] at hans
      contradiction

/-- A turn either pops an item of an expanded container, or expands one more state
below the limit. -/
theorem Searches.step_work (h : ms.Searches handed containers expanded l) (hne : ms.heuristics ≠ [])
    (hs : ms.step core l = .inr l') :
    (l'.statesExpanded = l.statesExpanded ∧
      (l'.opens.map List.length).sum + 1 = (l.opens.map List.length).sum) ∨
    (expansionLimitReached l.statesExpanded ms.maxExpandedStates = false ∧
      l'.statesExpanded = l.statesExpanded + 1) := by
  rcases h.step_eq core hne with ⟨-, hstep⟩ | ⟨i, q, rest, item, hp, hstep⟩
  · rw [hstep] at hs
    contradiction
  · rw [hstep] at hs
    split_ifs at hs with hc
    · obtain rfl := Sum.inr.inj hs
      exact .inl ⟨rfl, hp.sum_length⟩
    · rw [MultiqueueSearch.expand] at hs
      split_ifs at hs with hlim hg
      dsimp only at hs
      cases hcol : l.visitedStates.collect ms.ss ms.tn ms.weakEquality ms.isEarlyGoal
          (ms.ss.getSuccessorStates ms.tn l.counter item.state ms.relevantActions).1 with
      | error p => rw [hcol] at hs; contradiction
      | ok c =>
        rw [hcol] at hs
        obtain rfl := Sum.inr.inj hs
        exact .inr ⟨by simpa using hlim, rfl⟩

/-- With an expansion limit the search ends. -/
theorem exists_run_of_limit (hsafe : PruningSafe ms.ss ms.tn ms.relevantActions ms.weakEquality)
    (hne : ms.heuristics ≠ []) (hh : ∀ h ∈ ms.heuristics, SeesGoals ms.ss ms.tn ms.relevantActions h.eval)
    (hmax : ms.maxExpandedStates ≠ none) (counter : ℕ) : ∃ n r, ms.run core counter n = .inl r := by
  obtain ⟨limit, hlimit⟩ := Option.ne_none_iff_exists'.mp hmax
  rcases start_searches hsafe hne counter with ⟨r, hr, -⟩ | ⟨l, handed, containers, expanded, hl, hs⟩
  · exact ⟨0, r, hr⟩
  · let Inv : MultiqueueLoop V → Prop := fun l => ∃ handed containers expanded,
      ms.Searches handed containers expanded l
    let left : MultiqueueLoop V → ℕ ×ₗ ℕ := fun l =>
      toLex (limit - l.statesExpanded, (l.opens.map List.length).sum)
    have hstep : ∀ l l', Inv l → ms.step core l = .inr l' → Inv l' ∧ left l' < left l := by
      rintro l l' ⟨handed, containers, expanded, h⟩ hl'
      rcases @Searches.step _ ms core l handed containers expanded _ hsafe hne hh h with
        ⟨r, hr, -⟩ | ⟨l'', h1, h2, h3, hl'', h'⟩
      · rw [hr] at hl'
        contradiction
      · obtain rfl := Sum.inr.inj (hl''.symm.trans hl')
        refine ⟨⟨h1, h2, h3, h'⟩, ?_⟩
        rw [Prod.Lex.toLex_lt_toLex]
        rcases h.step_work hne hl' with ⟨hexp, hsum⟩ | ⟨hlim, hexp⟩
        · exact .inr ⟨by rw [hexp], by omega⟩
        · rw [expansionLimitReached, hlimit, Option.any_some, decide_eq_false_iff_not, not_le] at hlim
          exact .inl (by omega)
    obtain ⟨n, r, -, hr, -⟩ := Exploration.exists_answer hstep ⟨handed, containers, expanded, hs⟩
    exact ⟨n, r, by rw [run, hl, hr]⟩

/-- Whatever a multiqueue search returns is right, on classical and on temporal problems. -/
theorem queues_right (ms : MultiqueueSearch V)
    (hsafe : PruningSafe ms.ss ms.tn ms.relevantActions ms.weakEquality) (hne : ms.heuristics ≠ [])
    (hh : ∀ h ∈ ms.heuristics, SeesGoals ms.ss ms.tn ms.relevantActions h.eval) (core : Core)
    (counter : ℕ) :
    (∀ n r, ms.run core counter n = .inl r →
      RightAnswer ms.ss ms.tn ms.relevantActions ms.maxExpandedStates r) ∧
    (ms.maxExpandedStates ≠ none → ∃ n r, ms.run core counter n = .inl r) :=
  ⟨fun n _ hr => run_right hsafe hne hh counter n hr,
    fun hmax => exists_run_of_limit hsafe hne hh hmax counter⟩

end MultiqueueSearch

end Spaces

section Race

attribute [local instance] Callables.empty

/-- The order of the items of a queue is that of a key. -/
theorem raceItem_lt (p q : ContainerItem ℚ) : ContainerItem.lt (fun v w => decide (v < w)) p q =
    decide (toLex (p.heuristic, p.state.todo.entries.length) <
      toLex (q.heuristic, q.state.todo.entries.length)) := by
  rw [Bool.eq_iff_iff]
  simp only [ContainerItem.lt, decide_eq_true_eq, Prod.Lex.toLex_lt_toLex]
  split_ifs with h1 h2
  · simp [h1]
  · simp [h1, h2.ne']
  · simp [le_antisymm (not_lt.mp h2) (not_lt.mp h1)]

/-- One queue that reads a heuristic, and one that reads none. -/
noncomputable def raceQueues : MultiqueueSearch ℚ where
  ss := race 1
  tn := .earliest
  relevantActions := [⟨0⟩, ⟨1⟩, ⟨2⟩]
  heuristics :=
    [⟨fun s => some (s.todo.entries.length), fun s v => s.g + v⟩, ⟨fun _ => some 0, fun s _ => s.g⟩]
  lt := fun v w => v < w
  zero := 0
  queue := .ofKey (fun x => toLex (x.heuristic, x.state.todo.entries.length)) raceItem_lt
  maxExpandedStates := some 20
  earlyTermination := true
  weakEquality := false

theorem queues_right_race : ∃ n r, raceQueues.run .python 0 n = .inl r ∧
    RightAnswer (race 1) .earliest [⟨0⟩, ⟨1⟩, ⟨2⟩] (some 20) r := by
  have hh : ∀ h ∈ raceQueues.heuristics, SeesGoals (race 1) .earliest [⟨0⟩, ⟨1⟩, ⟨2⟩] h.eval := by
    intro h hh
    have hcases : h = raceQueues.heuristics[0] ∨ h = raceQueues.heuristics[1] := by
      simpa [raceQueues] using hh
    rcases hcases with rfl | rfl <;> exact fun _ _ _ _ => rfl
  obtain ⟨hright, hend⟩ := MultiqueueSearch.queues_right raceQueues (race_pruningSafe _)
    (List.cons_ne_nil _ _) hh .python 0
  obtain ⟨n, r, hr⟩ := hend nofun
  exact ⟨n, r, hr, hright n r hr⟩

end Race

end TamerLite
