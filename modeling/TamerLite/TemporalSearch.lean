import TamerLite.PrioritySearch
import TamerLite.PruningSafety

/-! Priority search over any search space: temporal problems, with or without a
deadline, prune by equality or by makespan, and nothing bounds how many states
there are. What is returned is right all the same. -/

namespace TamerLite

open SearchSpace

section Spaces

theorem not_expansionLimitReached {n : ℕ} {maxExpandedStates : Option ℕ}
    (h : expansionLimitReached n maxExpandedStates = true) : maxExpandedStates ≠ none := by
  rintro rfl
  exact absurd h (by simp [expansionLimitReached])

/-- The nodes behind open states, one of which is taken. -/
theorem exists_taken {openNodes : List TreeNode} {s : State} {rest : List State}
    (h : (openNodes.map Prod.fst).Perm (s :: rest)) : ∃ n others,
      n.1 = s ∧ openNodes.Perm (n :: others) ∧ (others.map Prod.fst).Perm rest := by
  obtain ⟨n, hn, rfl⟩ := List.mem_map.mp (h.mem_iff.mpr List.mem_cons_self)
  obtain ⟨pre, post, rfl⟩ := List.append_of_mem hn
  have hperm : (pre ++ n :: post).Perm (n :: (pre ++ post)) := List.perm_middle
  refine ⟨n, pre ++ post, rfl, hperm, ?_⟩
  have hmap := (hperm.map Prod.fst).symm.trans h
  exact hmap.cons_inv

theorem PrioritySearch.push_expandedStates {V : Type} {ps : PrioritySearch V} (item : ps.st.Item)
    (l : PriorityLoop ps.st) (s : State) : (ps.push item l s).expandedStates = l.expandedStates := by
  rw [push]
  cases ps.heuristic s <;> rfl

variable [Callables]

/-- What a search keeps of the nodes handed to its store. -/
structure Pruned (ss : SearchSpace) (tn : DeltaSimpleTemporalNetwork) (relevantActions : List Action)
    (weakEquality : Bool) (store : VisitedStates) (counter : ℕ) (handed : List TreeNode)
    (openNodes expanded : Set TreeNode) : Prop where
  leads : ∀ n ∈ handed, Leads ss tn relevantActions n.2 n.1 counter
  store_eq : store = .ofStates ss tn weakEquality (handed.map Prod.fst)
  root : ∃ s, (s, []) ∈ handed
  pruning : Exploration.Pruning (Ahead ss tn relevantActions) {n | n ∈ handed} openNodes expanded

namespace Pruned

variable {ss : SearchSpace} {tn : DeltaSimpleTemporalNetwork} {relevantActions : List Action}
  {weakEquality : Bool} {store : VisitedStates} {counter : ℕ} {handed : List TreeNode}
  {openNodes openNodes' expanded : Set TreeNode} {n : TreeNode} {k : ℕ}

/-- The initial node. -/
theorem start {init : State} (h₀ : ss.initial tn counter = some init) (hopen : (init, []) ∈ openNodes) :
    Pruned ss tn relevantActions weakEquality (.insert ss tn weakEquality ⟨[], []⟩ init)
      (initialCounter ss counter) [(init, [])] openNodes ∅ := by
  refine ⟨?_, rfl, ⟨init, List.mem_cons_self⟩, ⟨fun n hn k hk => ⟨n, .inl ?_, hk⟩, ?_, ?_⟩⟩
  · simpa using Leads.initial h₀
  · exact List.mem_singleton.mp hn ▸ hopen
  · exact fun n hn => absurd hn (Set.notMem_empty n)
  · exact fun n hn => absurd hn (Set.notMem_empty n)

theorem mono (h : Pruned ss tn relevantActions weakEquality store counter handed openNodes expanded)
    (hopen : openNodes ⊆ openNodes') :
    Pruned ss tn relevantActions weakEquality store counter handed openNodes' expanded := by
  refine ⟨h.leads, h.store_eq, h.root, ⟨fun n hn k hk => ?_, h.pruning.closed, h.pruning.fruitless⟩⟩
  obtain ⟨m, hm, hmk⟩ := h.pruning.covered n hn k hk
  exact ⟨m, hm.imp_left fun ho => hopen ho, hmk⟩

/-- Nothing is open: no sequence is accepted. -/
theorem noPath (h : Pruned ss tn relevantActions weakEquality store counter handed ∅ expanded)
    (as : List Action) : ¬ AcceptedWithin ss tn true relevantActions as := by
  intro hacc
  obtain ⟨s, hs⟩ := h.root
  exact h.pruning.exhausted as.length (s, []) hs ⟨as, rfl, hacc⟩

/-- A step towards a goal leads to a node that is handed over. -/
theorem exists_nearer {new : List TreeNode} (hn : Ahead ss tn relevantActions (k + 1) n)
    (hall : ∀ bs, AcceptedWithin ss tn true relevantActions bs → ∀ a ∈ relevantActions,
      n.2 ++ [a] <+: bs → n.2 ++ [a] ∈ new.map Prod.snd) :
    ∃ m ∈ new, Ahead ss tn relevantActions k m := by
  obtain ⟨as, hlen, hacc⟩ := hn
  cases as with
  | nil => contradiction
  | cons a as =>
    have hmem := hall (n.2 ++ a :: as) hacc a (hacc.2 a (by simp)) ⟨as, by simp⟩
    obtain ⟨m, hm, hword⟩ := List.mem_map.mp hmem
    refine ⟨m, hm, as, by simpa using hlen, ?_⟩
    rw [hword]
    simpa using hacc

/-- Handing over the successors of a node that is no goal. Those that are recorded
and that a goal lies ahead of are to be opened. -/
theorem expand (hp : PruningSafe ss tn relevantActions weakEquality)
    (h : Pruned ss tn relevantActions weakEquality store counter handed openNodes expanded)
    (hn : n ∈ handed) (hgoal : ss.goalReached n.1 = false) : ∃ new fresh : List TreeNode,
      fresh.map Prod.fst = store.fresh ss tn weakEquality
        (ss.getSuccessorStates tn counter n.1 relevantActions).1 ∧
      (∀ m ∈ fresh, m ∈ handed ++ new) ∧
      ∀ openNodes' : Set TreeNode, (∀ m ∈ openNodes, m ∈ openNodes' ∨ m = n) →
        (∀ m ∈ fresh, ∀ k, Ahead ss tn relevantActions k m → m ∈ openNodes') →
        Pruned ss tn relevantActions weakEquality
          (store.insertAll ss tn weakEquality (ss.getSuccessorStates tn counter n.1 relevantActions).1)
          (ss.getSuccessorStates tn counter n.1 relevantActions).2 (handed ++ new) openNodes'
          (insert n expanded) := by
  have hleads := h.leads n hn
  obtain ⟨new, hmap, -, hd, hnew, hall⟩ := exists_treeNodes hp.exact hleads fun a ha => ha
  have hleads' : ∀ m ∈ handed ++ new, Leads ss tn relevantActions m.2 m.1
      (ss.getSuccessorStates tn counter n.1 relevantActions).2 := by
    intro m hm
    rcases List.mem_append.mp hm with hm | hm
    · exact (h.leads m hm).mono hd
    · exact (hnew m hm).1
  obtain ⟨fresh, hfresh, hfreshSub, hcover⟩ := exists_fresh hp hleads'
  rw [← h.store_eq, hmap] at hfresh
  refine ⟨new, fresh, hfresh, fun m hm => List.mem_append_right _ (hfreshSub m hm),
    fun openNodes' hopen hopened => ⟨hleads', ?_, ?_, ?_⟩⟩
  · rw [List.map_append, hmap, h.store_eq, VisitedStates.insertAll, VisitedStates.ofStates,
      VisitedStates.ofStates, List.foldl_append]
  · obtain ⟨s, hs⟩ := h.root
    exact ⟨s, List.mem_append_left _ hs⟩
  · refine h.pruning.expand (fun m hm => List.mem_append_left _ hm) hopen (fun m hm => ?_)
      (fun k hk => ?_) fun h0 => ?_
    · rcases List.mem_append.mp hm with hm | hm
      · exact .inl hm
      · refine .inr fun k hk => ?_
        obtain ⟨o, ho, hok⟩ := hcover m hm k hk
        rcases ho with ho | ho
        · exact ⟨o, .inl ho, hok⟩
        · exact ⟨o, .inr (hopened o ho k hok), hok⟩
    · obtain ⟨m, hm, hmk⟩ := exists_nearer hk hall
      exact ⟨m, List.mem_append_right _ hm, hmk⟩
    · obtain ⟨as, hlen, hacc⟩ := h0
      obtain rfl := List.length_eq_zero_iff.mp hlen
      rw [List.append_nil] at hacc
      rw [(hleads.goalReached_iff hp.exact).mpr hacc] at hgoal
      contradiction

/-- The path of a goal among the successors of a node that was handed over. -/
theorem path_of_successor (hp : PruningSafe ss tn relevantActions weakEquality)
    (h : Pruned ss tn relevantActions weakEquality store counter handed openNodes expanded)
    (hn : n ∈ handed) {t : State} (ht : t ∈ (ss.getSuccessorStates tn counter n.1 relevantActions).1)
    (hgoal : ss.goalReached t = true) (maxExpandedStates : Option ℕ) :
    RightAnswer ss tn relevantActions maxExpandedStates (.path (extractPath t)) := by
  obtain ⟨new, hmap, -, -, hnew, -⟩ := exists_treeNodes hp.exact (h.leads n hn) fun a ha => ha
  rw [← hmap] at ht
  obtain ⟨m, hm, rfl⟩ := List.mem_map.mp ht
  exact ⟨m.2, m.1, _, (hnew m hm).1, hgoal, rfl⟩

end Pruned

/-- A state that neither was an early goal nor ended the search is no goal. -/
theorem goalReached_eq_false {ss : SearchSpace} {s : State} {earlyTermination : Bool}
    (hearly : (earlyTermination && ss.goalReached s) = false)
    (hno : ¬ (!earlyTermination && ss.goalReached s) = true) : ss.goalReached s = false := by
  cases earlyTermination with
  | true => simpa using hearly
  | false => simpa using hno

namespace PrioritySearch

variable {V : Type} {ps : PrioritySearch V} {core : Core} {l l' : PriorityLoop ps.st} {r : SearchOutcome}

/-- The invariant of the loop on any search space. -/
def Searches (ps : PrioritySearch V) (l : PriorityLoop ps.st) : Prop :=
  ∃ (handed openNodes : List TreeNode) (expanded : Set TreeNode),
    Pruned ps.ss ps.tn ps.relevantActions ps.weakEquality l.dedup l.counter handed
      {n | n ∈ openNodes} expanded ∧
    (∀ n ∈ openNodes, n ∈ handed ∧ ps.isEarlyGoal n.1 = false) ∧
    (openNodes.map Prod.fst).Perm (l.openItems.map ps.st.stateOf)

theorem Searches.step (hp : PruningSafe ps.ss ps.tn ps.relevantActions ps.weakEquality)
    (hh : SeesGoals ps.ss ps.tn ps.relevantActions ps.heuristic) (h : ps.Searches l)
    (hs : ps.step core l = .inr l') : ps.Searches l' := by
  obtain ⟨handed, openNodes, expanded, hpruned, hwait, hperm⟩ := h
  rw [PrioritySearch.step] at hs
  cases hpop : ps.queue.pop l.openItems with
  | none => rw [hpop] at hs; contradiction
  | some x =>
    obtain ⟨item, rest⟩ := x
    rw [hpop] at hs
    dsimp only at hs
    split_ifs at hs with hlim hg
    cases he : ps.expand core item { l with openItems := rest, expandedStates := l.expandedStates + 1 } with
    | error q => rw [he] at hs; contradiction
    | ok m =>
      rw [he] at hs
      obtain rfl := Sum.inr.inj hs
      have hitems := (ps.queue.pop_perm hpop).map ps.st.stateOf
      obtain ⟨n, others, hn, hnodes, hothers⟩ := exists_taken (hperm.trans hitems)
      have hmem : n ∈ openNodes := hnodes.mem_iff.mpr List.mem_cons_self
      rw [← hn] at hg
      have hgoal := goalReached_eq_false (hwait n hmem).2 hg
      obtain ⟨hdedup, hcounter, ⟨items, hopen, hmap⟩, hearly⟩ := expand_ok he
      rw [← hn] at hdedup hcounter hmap hearly
      obtain ⟨new, fresh, hfresh, hfreshSub, hexpand⟩ := hpruned.expand hp (hwait n hmem).1 hgoal
      let opened := fresh.filter fun m => (ps.heuristic m.1).isSome
      refine ⟨handed ++ new, opened ++ others, insert n expanded, ?_, fun m hm => ?_, ?_⟩
      · rw [hdedup, hcounter]
        refine hexpand _ (fun m hm => ?_) fun m hm k hk => ?_
        · rcases List.mem_cons.mp (hnodes.mem_iff.mp hm) with hm | hm
          · exact .inr hm
          · exact .inl (List.mem_append_right _ hm)
        · have hleads := (hexpand Set.univ (fun _ _ => .inl trivial) fun _ _ _ _ => trivial).leads
          have hsome := hh.isSome hp.exact (hleads m (hfreshSub m hm)) hk
          exact List.mem_append_left _ (List.mem_filter.mpr ⟨hm, hsome⟩)
      · rcases List.mem_append.mp hm with hm | hm
        · have hmf := (List.mem_filter.mp hm).1
          refine ⟨hfreshSub m hmf, hearly m.1 ?_⟩
          have hmem := List.mem_map_of_mem (f := Prod.fst) hmf
          rw [hfresh] at hmem
          exact hmem
        · have hw := hwait m (hnodes.mem_iff.mpr (List.mem_cons_of_mem _ hm))
          exact ⟨List.mem_append_left _ hw.1, hw.2⟩
      · have hopened : opened.map Prod.fst = (l.dedup.fresh ps.ss ps.tn ps.weakEquality
            (ps.ss.getSuccessorStates ps.tn l.counter n.1 ps.relevantActions).1).filter
              fun s => (ps.heuristic s).isSome := by
          rw [← hfresh, List.filter_map]
          rfl
        rw [hopen, List.map_append, List.map_append, hopened, hmap]
        exact (List.reverse_perm _).symm.append hothers

/-- What ends the loop is right. -/
theorem Searches.answer (hp : PruningSafe ps.ss ps.tn ps.relevantActions ps.weakEquality)
    (h : ps.Searches l) (hs : ps.step core l = .inl r) :
    RightAnswer ps.ss ps.tn ps.relevantActions ps.maxExpandedStates r := by
  obtain ⟨handed, openNodes, expanded, hpruned, hwait, hperm⟩ := h
  rw [PrioritySearch.step] at hs
  cases hpop : ps.queue.pop l.openItems with
  | none =>
    rw [hpop] at hs
    obtain rfl := Sum.inl.inj hs
    have hempty := ps.queue.pop_eq_none.mp hpop
    rw [hempty, List.map_nil, List.perm_nil, List.map_eq_nil_iff] at hperm
    have hnone : {n : TreeNode | n ∈ openNodes} = ∅ := by simp [hperm]
    rw [hnone] at hpruned
    exact hpruned.noPath
  | some x =>
    obtain ⟨item, rest⟩ := x
    have hitems := (ps.queue.pop_perm hpop).map ps.st.stateOf
    obtain ⟨n, others, hn, hnodes, -⟩ := exists_taken (hperm.trans hitems)
    have hmem := (hwait n (hnodes.mem_iff.mpr List.mem_cons_self)).1
    rw [hpop] at hs
    dsimp only at hs
    split_ifs at hs with hlim hg
    · obtain rfl := Sum.inl.inj hs
      exact not_expansionLimitReached hlim
    · obtain rfl := Sum.inl.inj hs
      rw [Bool.and_eq_true] at hg
      exact ⟨n.2, n.1, _, hpruned.leads n hmem, hn ▸ hg.2, by rw [hn]⟩
    · cases he : ps.expand core item { l with openItems := rest, expandedStates := l.expandedStates + 1 } with
      | ok m => rw [he] at hs; contradiction
      | error q =>
        rw [he] at hs
        obtain rfl := Sum.inl.inj hs
        obtain ⟨t, ht, hearly, rfl⟩ := expand_error he
        rw [← hn] at ht
        rw [isEarlyGoal, Bool.and_eq_true] at hearly
        exact hpruned.path_of_successor hp hmem ht hearly.2 _

/-- Before the loop. -/
theorem start_searches (hp : PruningSafe ps.ss ps.tn ps.relevantActions ps.weakEquality)
    (hh : SeesGoals ps.ss ps.tn ps.relevantActions ps.heuristic) (counter : ℕ) :
    (∃ r, ps.start counter = .inl r ∧ RightAnswer ps.ss ps.tn ps.relevantActions ps.maxExpandedStates r) ∨
      ∃ l, ps.start counter = .inr l ∧ ps.Searches l := by
  rw [PrioritySearch.start]
  cases h₀ : ps.ss.initial ps.tn counter with
  | none => exact .inl ⟨_, rfl, fun as => not_accepted_of_initial hp.exact h₀⟩
  | some init =>
    have hleads : Leads ps.ss ps.tn ps.relevantActions [] init (initialCounter ps.ss counter) := .initial h₀
    dsimp only
    by_cases hearly : ps.isEarlyGoal init = true
    · rw [if_pos hearly]
      rw [isEarlyGoal, Bool.and_eq_true] at hearly
      exact .inl ⟨_, rfl, [], init, _, hleads, hearly.2, rfl⟩
    · rw [if_neg hearly]
      cases hv : ps.heuristic init with
      | none =>
        refine .inl ⟨_, rfl, fun as hacc => ?_⟩
        have hsome := hh.isSome (n := (init, [])) hp.exact hleads ⟨as, rfl, hacc⟩
        rw [hv] at hsome
        contradiction
      | some v =>
        refine .inr ⟨_, rfl, [(init, [])], [(init, [])], ∅, .start h₀ List.mem_cons_self, ?_, ?_⟩
        · simpa using hearly
        · simp [ps.st.stateOf_root]

theorem run_right (hp : PruningSafe ps.ss ps.tn ps.relevantActions ps.weakEquality)
    (hh : SeesGoals ps.ss ps.tn ps.relevantActions ps.heuristic) (counter n : ℕ)
    (h : ps.run core counter n = .inl r) :
    RightAnswer ps.ss ps.tn ps.relevantActions ps.maxExpandedStates r := by
  rw [run] at h
  rcases start_searches hp hh counter with ⟨r', hr', hright⟩ | ⟨l, hl, hsearch⟩
  · rw [hr', Exploration.iterate_inl] at h
    exact Sum.inl.inj h ▸ hright
  · rw [hl] at h
    obtain ⟨m, l', hl', hans⟩ := Exploration.exists_last h
    have hinv := Exploration.iterate_inv (fun l l' hs hstep => Searches.step hp hh hs hstep) hsearch hl'
    exact hinv.answer hp hans

theorem expandEach_expandedStates {item : ps.st.Item} {states : List State}
    (h : ps.expandEach item l states = .ok l') : l'.expandedStates = l.expandedStates := by
  induction states generalizing l with
  | nil =>
    obtain rfl := Except.ok.inj h
    rfl
  | cons s states ih =>
    rw [expandEach] at h
    split_ifs at h with hr hg
    · have hrest := ih h
      exact hrest
    · rw [ih h, push_expandedStates]

theorem expand_expandedStates {item : ps.st.Item} (h : ps.expand core item l = .ok l') :
    l'.expandedStates = l.expandedStates := by
  cases core with
  | python =>
    simp only [expand] at h
    cases hc : l.dedup.collect ps.ss ps.tn ps.weakEquality ps.isEarlyGoal
        (ps.ss.getSuccessorStates ps.tn l.counter (ps.st.stateOf item) ps.relevantActions).1 with
    | error q => rw [hc] at h; contradiction
    | ok c =>
      rw [hc] at h
      obtain rfl := Except.ok.inj h
      have hfold : ∀ (states : List State) (m : PriorityLoop ps.st),
          (states.foldl (ps.push item) m).expandedStates = m.expandedStates := by
        intro states
        induction states with
        | nil => exact fun m => rfl
        | cons s states ih => exact fun m => (ih _).trans (push_expandedStates item m s)
      exact hfold _ _
  | rust =>
    have hrest := expandEach_expandedStates h
    exact hrest

/-- Every turn expands one more state than the last, and only below the limit. -/
theorem step_expandedStates (hs : ps.step core l = .inr l') :
    expansionLimitReached l.expandedStates ps.maxExpandedStates = false ∧
      l'.expandedStates = l.expandedStates + 1 := by
  rw [PrioritySearch.step] at hs
  cases hpop : ps.queue.pop l.openItems with
  | none => rw [hpop] at hs; contradiction
  | some x =>
    rw [hpop] at hs
    dsimp only at hs
    split_ifs at hs with hlim hg
    cases he : ps.expand core x.1 { l with openItems := x.2, expandedStates := l.expandedStates + 1 } with
    | error q => rw [he] at hs; contradiction
    | ok m =>
      rw [he] at hs
      obtain rfl := Sum.inr.inj hs
      exact ⟨by simpa using hlim, expand_expandedStates he⟩

/-- With an expansion limit the search ends. -/
theorem exists_run_of_limit (hmax : ps.maxExpandedStates ≠ none) (counter : ℕ) :
    ∃ n r, ps.run core counter n = .inl r := by
  obtain ⟨limit, hlimit⟩ := Option.ne_none_iff_exists'.mp hmax
  cases hstart : ps.start counter with
  | inl r => exact ⟨0, r, hstart⟩
  | inr l =>
    let Ranked : PriorityLoop ps.st → ℕ → Prop := fun l k => k = limit - l.expandedStates
    have hrank : Ranked l _ := rfl
    have hstep : ∀ l l' k, Ranked l k → ps.step core l = .inr l' → ∃ j < k, Ranked l' j := by
      rintro l l' _ rfl hs
      obtain ⟨hlim, hexp⟩ := step_expandedStates hs
      rw [expansionLimitReached, hlimit, Option.any_some, decide_eq_false_iff_not, not_le] at hlim
      exact ⟨_, by omega, rfl⟩
    obtain ⟨n, r, hr⟩ := Exploration.exists_answer_of_rank hstep hrank
    exact ⟨n, r, by rw [run, hstart, hr]⟩

/-- Whatever a priority search returns is right, on classical and on temporal problems. -/
theorem temporal_right (ps : PrioritySearch V)
    (hp : PruningSafe ps.ss ps.tn ps.relevantActions ps.weakEquality)
    (hh : SeesGoals ps.ss ps.tn ps.relevantActions ps.heuristic) (core : Core) (counter : ℕ) :
    (∀ n r, ps.run core counter n = .inl r →
      RightAnswer ps.ss ps.tn ps.relevantActions ps.maxExpandedStates r) ∧
    (ps.maxExpandedStates ≠ none → ∃ n r, ps.run core counter n = .inl r) :=
  ⟨fun n _ hr => run_right hp hh counter n hr, fun hmax => exists_run_of_limit hmax counter⟩

end PrioritySearch

end Spaces

section Race

attribute [local instance] Callables.empty

/-- Both ways to make the first fluent true are tried, and there is a deadline. -/
theorem race_pruningSafe (relevantActions : List Action) :
    PruningSafe (race 1) .earliest relevantActions false :=
  ⟨DeltaSimpleTemporalNetwork.earliest_exact, fun _ _ => rfl, nofun, fun _ => rfl,
    fun _ _ s _ a _ _ => race_opensNonneg s a⟩

noncomputable def raceSearch : PrioritySearch ℚ where
  ss := race 1
  tn := .earliest
  relevantActions := [⟨0⟩, ⟨1⟩, ⟨2⟩]
  heuristic := fun _ => some 0
  st := wastar (1 / 2)
  queue := PrioritizedItem.queue
  maxExpandedStates := some 20
  earlyTermination := false
  weakEquality := false

theorem temporal_right_race : ∃ n r, raceSearch.run .rust 0 n = .inl r ∧
    RightAnswer (race 1) .earliest [⟨0⟩, ⟨1⟩, ⟨2⟩] (some 20) r := by
  obtain ⟨hright, hend⟩ := PrioritySearch.temporal_right raceSearch (race_pruningSafe _)
    (fun _ _ _ _ => rfl) .rust 0
  obtain ⟨n, r, hr⟩ := hend nofun
  exact ⟨n, r, hr, hright n r hr⟩

end Race

end TamerLite
