import TamerLite.Dedup

/-! The edges between events an expansion adds are few. They say as much as
linking every event of the path to every earlier one. -/

namespace TamerLite

open Difference SearchSpace Schedule

section Links

variable (ss : SearchSpace)

/-- The edge from an event to a later one. -/
def link (p q : Action × ℕ × ℕ) : Edge :=
  ⟨.event p.1 p.2.1 p.2.2, .event q.1 q.2.1 q.2.2,
    if ss.mutex (q.1, q.2.1) (p.1, p.2.1) then -ss.epsilon else 0⟩

def pathLinks : List (Action × ℕ × ℕ) → List Edge
  | [] => []
  | p :: path => path.map (link ss p) ++ pathLinks path

/-- Every event of the path linked to every later one, pending ones included. -/
def allLinks (path pending : List (Action × ℕ × ℕ)) : List Edge :=
  pathLinks ss path ++ path.flatMap fun p => pending.map (link ss p)

/-- Whether an edge is between two events. -/
def isLink (e : Edge) : Bool :=
  match e.x, e.y with
  | .event .., .event .. => true
  | _, _ => false

/-- A network with its edges between events replaced by all of them. -/
def fullNetwork (log : List Edge) (s : State) : List Edge :=
  log.filter (fun e => !isLink e) ++ allLinks ss s.path (ss.pendingEvents s.todo)

end Links

section Exactness

variable {ss : SearchSpace} {τ : Timepoint → ℚ} {path pending : List (Action × ℕ × ℕ)}

/-- What one link asks for. -/
def Linked (ss : SearchSpace) (τ : Timepoint → ℚ) (p q : Action × ℕ × ℕ) : Prop :=
  τ (.event p.1 p.2.1 p.2.2) ≤ τ (.event q.1 q.2.1 q.2.2) ∧
    (ss.mutex (q.1, q.2.1) (p.1, p.2.1) = true →
      τ (.event p.1 p.2.1 p.2.2) + ss.epsilon ≤ τ (.event q.1 q.2.1 q.2.2))

theorem solves_link {p q : Action × ℕ × ℕ} :
    τ (link ss p q).x - τ (link ss p q).y ≤ (link ss p q).b ↔ Linked ss τ p q := by
  have hε := ss.epsilon_nonneg
  by_cases hm : ss.mutex (q.1, q.2.1) (p.1, p.2.1) = true
  · simp only [link, Linked, hm, if_true, true_implies]
    constructor
    · intro h
      exact ⟨by linarith, by linarith⟩
    · intro h
      linarith [h.2]
  · simp only [link, Linked, hm, if_false, false_implies, and_true, Bool.false_eq_true]
    constructor <;> intro h <;> linarith

theorem solves_pathLinks : Solves τ (pathLinks ss path) ↔ path.Pairwise (Linked ss τ) := by
  induction path with
  | nil => simp [pathLinks]
  | cons p path ih =>
    rw [pathLinks, solves_append, ih, List.pairwise_cons]
    simp only [Solves, List.forall_mem_map, solves_link]

theorem solves_allLinks : Solves τ (allLinks ss path pending) ↔
    path.Pairwise (Linked ss τ) ∧ ∀ p ∈ path, ∀ q ∈ pending, Linked ss τ p q := by
  rw [allLinks, solves_append, solves_pathLinks]
  refine and_congr_right fun _ => ?_
  simp only [Solves, List.mem_flatMap, List.mem_map]
  constructor
  · intro h p hp q hq
    exact solves_link.mp (h _ ⟨p, hp, q, hq, rfl⟩)
  · intro h e he
    obtain ⟨p, hp, q, hq, rfl⟩ := he
    exact solves_link.mpr (h p hp q hq)

theorem mem_pathLinks_append {p q : Action × ℕ × ℕ} (hp : p ∈ path) :
    link ss p q ∈ pathLinks ss (path ++ [q]) := by
  induction path with
  | nil => contradiction
  | cons r path ih =>
    rw [List.cons_append, pathLinks, List.mem_append]
    rcases List.mem_cons.mp hp with rfl | hp
    · exact .inl (List.mem_map_of_mem (by simp))
    · exact .inr (ih hp)

theorem pathLinks_subset {path' : List (Action × ℕ × ℕ)} :
    pathLinks ss path ⊆ pathLinks ss (path ++ path') := by
  induction path with
  | nil => exact List.nil_subset _
  | cons p path ih =>
    intro e he
    rw [pathLinks, List.mem_append] at he
    rw [List.cons_append, pathLinks, List.mem_append]
    rcases he with he | he
    · rw [List.map_append]
      exact .inl (List.mem_append_left _ he)
    · exact .inr (ih he)

/-- Every edge of a network between two events is one of all links. -/
def LinksIn (ss : SearchSpace) (log : List Edge) (path pending : List (Action × ℕ × ℕ)) : Prop :=
  ∀ e ∈ log, isLink e = true → e ∈ allLinks ss path pending

/-- When a pending event happens, its links to the past are in the path. -/
theorem LinksIn.append {log : List Edge} {pending' : List (Action × ℕ × ℕ)} {q : Action × ℕ × ℕ}
    (h : LinksIn ss log path pending) (hp : ∀ r ∈ pending, r = q ∨ r ∈ pending') :
    LinksIn ss log (path ++ [q]) pending' := by
  intro e he hl
  rw [allLinks, List.mem_append]
  rcases List.mem_append.mp (h e he hl) with hm | hm
  · exact .inl (pathLinks_subset hm)
  · obtain ⟨p, hpm, hm⟩ := List.mem_flatMap.mp hm
    obtain ⟨r, hr, rfl⟩ := List.mem_map.mp hm
    rcases hp r hr with rfl | hr
    · exact .inl (mem_pathLinks_append hpm)
    · exact .inr (List.mem_flatMap.mpr ⟨p, List.mem_append_left _ hpm, List.mem_map_of_mem hr⟩)

theorem isLink_eventEdges {a : Action} {i id : ℕ} {le : List (Timing × Event)} {e : Edge}
    (he : e ∈ eventEdges a i le id) : isLink e = false := by
  induction le generalizing id with
  | nil => exact absurd he List.not_mem_nil
  | cons te le ih =>
    rw [eventEdges, List.mem_append] at he
    rcases he with he | he
    · simp only [interval, List.mem_cons, List.not_mem_nil, or_false] at he
      rcases he with rfl | rfl <;> rfl
    · exact ih he

theorem isLink_openingEdges {p : PendingOpening} {lower upper : ℚ} {e : Edge}
    (he : e ∈ ss.openingEdges p lower upper) : isLink e = false := by
  simp only [openingEdges, List.mem_append] at he
  rcases he with ((he | he) | he) | he
  · simp only [interval, List.mem_cons, List.not_mem_nil, or_false] at he
    rcases he with rfl | rfl <;> rfl
  · split_ifs at he
    · simp only [interval, List.mem_cons, List.not_mem_nil, or_false] at he
      rcases he with rfl | rfl <;> rfl
    · rw [List.mem_singleton.mp he]
      rfl
  · rw [List.mem_singleton.mp he]
    rfl
  · exact isLink_eventEdges he

theorem mem_predecessorEdges {eId : Action × ℕ} {id : ℕ} {b : Bool} {e : Edge}
    (he : e ∈ ss.predecessorEdges eId (.event eId.1 eId.2 id) b path) :
    ∃ p ∈ path, e = link ss p (eId.1, eId.2, id) := by
  induction path generalizing b with
  | nil => exact absurd he List.not_mem_nil
  | cons p path ih =>
    obtain ⟨a, pos, i⟩ := p
    by_cases hm : ss.mutex eId (a, pos) = true
    · rw [predecessorEdges, if_pos hm, List.mem_singleton] at he
      refine ⟨_, List.mem_cons_self, ?_⟩
      rw [he, link, if_pos hm]
    · have hrest : e ∈ ss.predecessorEdges eId (.event eId.1 eId.2 id) false path →
          ∃ p ∈ (a, pos, i) :: path, e = link ss p (eId.1, eId.2, id) := by
        intro he
        obtain ⟨p, hp, h⟩ := ih he
        exact ⟨p, List.mem_cons_of_mem _ hp, h⟩
      cases b with
      | true =>
        rw [predecessorEdges, if_neg hm, if_pos rfl, List.mem_cons] at he
        rcases he with rfl | he
        · refine ⟨_, List.mem_cons_self, ?_⟩
          rw [link, if_neg hm]
        · exact hrest he
      | false =>
        rw [predecessorEdges, if_neg hm, if_neg (by simp)] at he
        exact hrest he

theorem mem_todoEdges {eId : Action × ℕ} {id : ℕ} {todo : AList fun _ : Action => ℕ × ℕ} {e : Edge}
    (he : e ∈ ss.todoEdges eId (.event eId.1 eId.2 id) todo) :
    ∃ q ∈ ss.pendingEvents todo, e = link ss (eId.1, eId.2, id) q := by
  obtain ⟨q, hq, rfl⟩ := List.mem_map.mp he
  exact ⟨q, hq, by rw [link, mutex_comm]⟩

end Exactness

section Invariant

variable [Callables] {ss : SearchSpace} {tn : DeltaSimpleTemporalNetwork} {s s' : State}

/-- The state's network has no edge between events but those of all links, with
`pending` still to come. -/
def Linking (ss : SearchSpace) (s : State) (pending : List (Action × ℕ × ℕ)) : Prop :=
  ss.isTemporal = true → ∃ log, s.temporalNetwork = some log ∧ LinksIn ss log s.path pending

theorem linking_expandEvent {state newState : State} {e : Event} {index id : ℕ}
    {po : Option PendingOpening} {pending : List (Action × ℕ × ℕ)}
    (pending' : List (Action × ℕ × ℕ))
    (hs : ss.expandEvent tn state newState e index id po = some s') (hpos : e.pos = index)
    (hpath : newState.path = state.path)
    (hbase : ss.isTemporal = true → ∃ base, (newState.temporalNetwork <|> state.temporalNetwork) =
      some base ∧ LinksIn ss base state.path pending)
    (hp : ∀ r ∈ pending, r = (e.action, e.pos, id) ∨ r ∈ pending')
    (htodo : ∀ r ∈ ss.pendingEvents newState.todo, r ∈ pending') :
    Linking ss s' pending' ∧ s'.todo = newState.todo := by
  obtain ⟨removed, as, -, -, -, net, hacc, rfl⟩ := expandEvent_eq_some.mp hs
  refine ⟨fun ht => ?_, rfl⟩
  rw [Accepts, if_pos ht] at hacc
  obtain ⟨log, hlog, -, rfl⟩ := hacc
  obtain ⟨base, hb, hold⟩ := hbase ht
  refine ⟨log, rfl, ?_⟩
  show LinksIn ss log (newState.path ++ [(e.action, e.pos, id)]) pending'
  rw [hpath]
  simp only [network, hb, Option.bind_eq_bind, Option.bind_some, Option.bind_eq_some_iff] at hlog
  obtain ⟨opening, ho, hlog⟩ := hlog
  obtain rfl := Option.some.inj hlog
  intro x hx hl
  rw [List.mem_append, List.mem_append, List.mem_append] at hx
  rcases hx with ((hx | hx) | hx) | hx
  · exact hold.append hp x hx hl
  · exfalso
    cases po with
    | none =>
      obtain rfl := Option.some.inj ho
      exact absurd hx List.not_mem_nil
    | some p =>
      obtain ⟨b, -, rfl⟩ := Option.map_eq_some_iff.mp ho
      rw [isLink_openingEdges hx] at hl
      contradiction
  · rw [← hpos] at hx
    obtain ⟨p, hpm, rfl⟩ := mem_predecessorEdges hx
    exact List.mem_append_left _ (mem_pathLinks_append (List.mem_reverse.mp hpm))
  · rw [← hpos] at hx
    obtain ⟨q, hq, rfl⟩ := mem_todoEdges hx
    refine List.mem_append_right _ (List.mem_flatMap.mpr ⟨_, ?_, List.mem_map_of_mem (htodo q hq)⟩)
    simp

/-- The events of `a` from position `k` on, the first with id `id`. -/
def chain (a : Action) (k id n : ℕ) : List (Action × ℕ × ℕ) :=
  (List.range n).map fun i => (a, k + i, id + i)

theorem linking_expandRest {a : Action} {rest : List (Timing × Event)} {k id : ℕ}
    (hn : ∀ i te, rest[i]? = some te → te.2.action = a ∧ te.2.pos = k + i)
    (hs : ss.expandRest tn rest k id s = some s')
    (h : Linking ss s (ss.pendingEvents s.todo ++ chain a k id rest.length)) :
    Linking ss s' (ss.pendingEvents s'.todo) := by
  induction rest generalizing k id s with
  | nil =>
    obtain rfl := Option.some.inj hs
    simpa [chain] using h
  | cons te rest ih =>
    obtain ⟨t, ⟨-, ht⟩, hs⟩ := expandRest_cons.mp hs
    obtain ⟨ha, hk⟩ := hn 0 te rfl
    have hnext : ∀ r ∈ ss.pendingEvents s.todo ++ chain a k id (rest.length + 1),
        r = (te.2.action, te.2.pos, id) ∨
          r ∈ ss.pendingEvents s.todo ++ chain a (k + 1) (id + 1) rest.length := by
      intro r hr
      rcases List.mem_append.mp hr with hr | hr
      · exact .inr (List.mem_append_left _ hr)
      · obtain ⟨i, hi, rfl⟩ := List.mem_map.mp hr
        have hlt := List.mem_range.mp hi
        cases i with
        | zero => exact .inl (by simp [ha, hk])
        | succ i =>
          refine .inr (List.mem_append_right _ (List.mem_map.mpr ⟨i, ?_, ?_⟩))
          · rw [List.mem_range]
            simpa using hlt
          · simp only [Prod.mk.injEq, true_and]
            omega
    obtain ⟨hlink, htodo⟩ := linking_expandEvent
      (ss.pendingEvents s.todo ++ chain a (k + 1) (id + 1) rest.length) ht (by simpa using hk) rfl
      (fun htemp => by
        obtain ⟨log, hlog, hl⟩ := h htemp
        exact ⟨log, by simp [hlog], hl⟩) hnext (fun r hr => List.mem_append_left _ hr)
    refine ih (fun i te' hi => ?_) hs ?_
    · obtain ⟨ha', hk'⟩ := hn (i + 1) te' hi
      exact ⟨ha', by omega⟩
    · rw [htodo]
      exact hlink

theorem linking_running {a : Action} {d : ℕ} {p : ℕ × ℕ}
    (hs : ss.getSuccessorStateWithCompression tn d s a false = some s')
    (hl : s.todo.lookup a = some p) (h : Linking ss s (ss.pendingEvents s.todo)) :
    Linking ss s' (ss.pendingEvents s'.todo) := by
  rcases getSuccessorState_eq_some.mp hs with ⟨le, k, id, te, hle, hl', hte, -, -, hs⟩ |
    ⟨le, te, -, hl', -⟩
  · have hn := (ss.events_numbered hle).2 hte
    have hnext : ∀ r ∈ ss.pendingEvents s.todo, r = (te.2.action, te.2.pos, id) ∨
        r ∈ ss.pendingEvents (Config.nextTodo s.todo a le.length k (id + 1)) := by
      intro r hr
      obtain ⟨k₀, id₀, i, hlk, hr2, hs⟩ := mem_pendingEvents.mp hr
      by_cases hra : r.1 = a
      · rw [hra, hl'] at hlk
        obtain ⟨rfl, rfl⟩ : k = k₀ ∧ id = id₀ := by simpa using hlk
        cases i with
        | zero => exact .inl (Prod.ext (hra.trans hn.1.symm) (by rw [hr2, hn.2]; rfl))
        | succ i =>
          refine .inr (mem_pendingEvents.mpr ⟨k + 1, id + 1, i, ?_, ?_, ?_⟩)
          · rw [hra, Config.event_isSome hle] at hs
            rw [Config.lookup_nextTodo, if_pos hra, if_neg (by omega)]
          · rw [hr2]
            simp only [Prod.mk.injEq]
            omega
          · have he : k + 1 + i = k + (i + 1) := by omega
            rw [he]
            exact hs
      · refine .inr (mem_pendingEvents.mpr ⟨k₀, id₀, i, ?_, hr2, hs⟩)
        rw [Config.lookup_nextTodo, if_neg hra, hlk]
    obtain ⟨hlink, htodo⟩ := linking_expandEvent
      (ss.pendingEvents (Config.nextTodo s.todo a le.length k (id + 1))) hs hn.2 rfl
      (fun ht => by
        obtain ⟨log, hlog, hin⟩ := h ht
        exact ⟨log, by simp [hlog], hin⟩) hnext (fun r hr => hr)
    rw [htodo]
    exact hlink
  · rw [hl] at hl'
    contradiction

/-- Opening an action leaves its later events pending. -/
theorem linking_openAction {state newState : State} {a : Action} {le : List (Timing × Event)}
    {d : ℕ} {pin : Bool} (hle : ss.events a = some le)
    (hs : ss.openAction tn d state newState a le pin = some s') (hpath : newState.path = state.path)
    (htn : newState.temporalNetwork = none) (hl : newState.todo.lookup a = none)
    (h : Linking ss state (ss.pendingEvents newState.todo)) :
    Linking ss s' (ss.pendingEvents s'.todo) ∧
      s'.todo = if 1 < le.length then newState.todo.insert a (1, d + 1 + 1) else newState.todo := by
  have hpos : 0 < le.length := List.length_pos_iff.mpr (ss.events_numbered hle).1
  have hte := List.getElem?_eq_getElem hpos
  rw [openAction_eq hle hte] at hs
  have hnext : ∀ r ∈ ss.pendingEvents newState.todo, r ∈ ss.pendingEvents
      (if 1 < le.length then newState.todo.insert a (1, d + 1 + 1) else newState.todo) := by
    intro r hr
    obtain ⟨k, id, i, hlk, hr2, hs⟩ := mem_pendingEvents.mp hr
    have hra : r.1 ≠ a := by
      intro hra
      rw [hra, hl] at hlk
      contradiction
    refine mem_pendingEvents.mpr ⟨k, id, i, ?_, hr2, hs⟩
    split_ifs
    · rw [AList.lookup_insert_ne hra, hlk]
    · exact hlk
  obtain ⟨hlink, htodo⟩ := linking_expandEvent (ss.pendingEvents
    (if 1 < le.length then newState.todo.insert a (1, d + 1 + 1) else newState.todo)) hs
    ((ss.events_numbered hle).2 hte).2 hpath
    (fun ht => by
      obtain ⟨log, hlog, hin⟩ := h ht
      exact ⟨log, by simp [htn, hlog], hin⟩) (fun r hr => .inr (hnext r hr)) (fun r hr => hr)
  rw [htodo]
  exact ⟨hlink, rfl⟩

theorem linking_step {a : Action} {b : Bool} {d : ℕ}
    (hs : ss.getSuccessorStateWithCompression tn d s a b = some s')
    (h : Linking ss s (ss.pendingEvents s.todo)) : Linking ss s' (ss.pendingEvents s'.todo) := by
  have hplain : ∀ {t}, ss.getSuccessorStateWithCompression tn d s a false = some t →
      Linking ss t (ss.pendingEvents t.todo) := by
    intro t ht
    cases hl : s.todo.lookup a with
    | some p => exact linking_running ht hl h
    | none =>
      rcases getSuccessorState_eq_some.mp ht with ⟨le, k, id, te, -, hl', -⟩ |
        ⟨le, te, hle, -, -, -, -, -, -, ht⟩
      · rw [hl] at hl'
        contradiction
      · exact (linking_openAction hle ht rfl rfl hl h).1
  rcases getSuccessorStateWithCompression_eq_some.mp hs with ⟨-, hs⟩ |
    ⟨hc, le, t, next, hle, ht, hnext, hrest⟩
  · exact hplain hs
  · have hopen := hplain ht
    have hn : ∀ i te, le.tail[i]? = some te → te.2.action = a ∧ te.2.pos = 1 + i := by
      intro i te hi
      rw [List.getElem?_tail] at hi
      obtain ⟨hact, hpos⟩ := (ss.events_numbered hle).2 hi
      exact ⟨hact, by omega⟩
    obtain ⟨id, rfl⟩ : ∃ id, next = (1, id) := by
      rcases getSuccessorState_eq_some.mp ht with ⟨le', k, id, te, -, hl', -⟩ |
        ⟨le', te, hle', hl, -, -, -, -, -, ht⟩
      · simp [compressesState, hl'] at hc
      · obtain rfl := Option.some.inj (hle.symm.trans hle')
        have htodo := (linking_openAction hle ht rfl rfl hl h).2
        rw [htodo] at hnext
        split_ifs at hnext
        · rw [AList.lookup_insert] at hnext
          exact ⟨_, (Option.some.inj hnext).symm⟩
        · rw [hl] at hnext
          contradiction
    refine linking_expandRest hn hrest fun htemp => ?_
    obtain ⟨log, hlog, hin⟩ := hopen htemp
    refine ⟨log, hlog, fun e he hl => ?_⟩
    rcases List.mem_append.mp (hin e he hl) with hm | hm
    · exact List.mem_append_left _ hm
    · obtain ⟨p, hp, hm⟩ := List.mem_flatMap.mp hm
      obtain ⟨q, hq, rfl⟩ := List.mem_map.mp hm
      refine List.mem_append_right _ (List.mem_flatMap.mpr ⟨p, hp, List.mem_map_of_mem ?_⟩)
      obtain ⟨k, id', i, hlk, hq2, hs⟩ := mem_pendingEvents.mp hq
      by_cases hqa : q.1 = a
      · rw [hqa, hnext] at hlk
        obtain ⟨rfl, rfl⟩ : 1 = k ∧ id = id' := by simpa using hlk
        rw [hqa, Config.event_isSome hle] at hs
        refine List.mem_append_right _ (List.mem_map.mpr ⟨i, ?_, Prod.ext hqa.symm hq2.symm⟩)
        rw [List.mem_range, List.length_tail]
        omega
      · refine List.mem_append_left _ (mem_pendingEvents.mpr ⟨k, id', i, ?_, hq2, hs⟩)
        rw [AList.lookup_erase_ne hqa, hlk]

theorem linking_reached {b : Bool} {P : State → Action → Prop} {n : ℕ}
    (h : Reached ss tn b P s n) : Linking ss s (ss.pendingEvents s.todo) := by
  have hempty : Linking ss (emptyState ss) (ss.pendingEvents (emptyState ss).todo) := by
    intro ht
    refine ⟨ss.deadlineEdges, by simp [emptyState, ht], fun e he hl => ?_⟩
    unfold deadlineEdges at he
    split at he
    · exact absurd he List.not_mem_nil
    · simp only [interval, List.mem_cons, List.not_mem_nil, or_false] at he
      rcases he with rfl | rfl <;> exact absurd hl (by simp [isLink])
  induction h with
  | initial h₀ =>
    rcases initial_eq_some.mp h₀ with ⟨-, rfl⟩ | ⟨a, le, te, -, hle, -, -, -, hs⟩
    · exact hempty
    · exact (linking_openAction hle hs rfl rfl rfl hempty).1
  | step _ _ hs _ ih => exact linking_step hs ih

/-- Linking every event to every earlier one adds nothing to the network. -/
theorem solves_fullNetwork {b : Bool} {P : State → Action → Prop} {n : ℕ} {log : List Edge}
    (hx : tn.Exact) (h : Reached ss tn b P s n) (ht : ss.isTemporal = true)
    (hlog : s.temporalNetwork = some log) (τ : Timepoint → ℚ) :
    Solves τ log ↔ Solves τ (fullNetwork ss log s) := by
  obtain ⟨c, ids, hc, href, -⟩ := h.refines hx
  have hwf := hc.wellFormed
  obtain ⟨hpath, -, -, log', hlog', hsol⟩ := href.timed ht
  obtain rfl := Option.some.inj (hlog.symm.trans hlog')
  constructor
  · intro hτ
    have hplaced := (hsol τ).mp hτ
    have hlinked : ∀ {p q : ℕ × ℕ}, Follows (Schedule.mutex ss c) ss.epsilon
        (fun p => τ (point c ids p)) p q → Linked ss τ (key c ids p) (key c ids q) := fun h => h
    rw [fullNetwork, solves_append]
    refine ⟨hτ.subset (List.filter_subset_self _), solves_allLinks.mpr ⟨?_, ?_⟩⟩
    · rw [hpath, List.pairwise_map]
      exact (hplaced.ordered hwf).imp hlinked
    · rw [hpath]
      intro p hp q hq
      obtain ⟨p', hp', rfl⟩ := List.mem_map.mp hp
      obtain ⟨q', hq', rfl⟩ := (mem_pendingEvents_iff_key hwf href.todo q).mp hq
      have hf := hwf.fired p' hp'
      have hg := Schedule.actionOf_pending hwf hq'
      apply hlinked
      exact (follows_point (hplaced.time hf.1 hf.2) (hplaced.time hg.1 hg.2)).mp
        (hplaced.valid.pending p' hp' q' hq')
  · intro hτ e he
    obtain ⟨log', hlog', hin⟩ := linking_reached h ht
    obtain rfl := Option.some.inj (hlog.symm.trans hlog')
    apply hτ e
    by_cases hl : isLink e = true
    · exact List.mem_append_right _ (hin e he hl)
    · exact List.mem_append_left _ (List.mem_filter.mpr ⟨he, by simpa using hl⟩)

theorem Reached.run {b : Bool} {P : State → Action → Prop} {n m : ℕ} {as : List Action} {t : State}
    (h : Reached ss tn b P s n) (hr : Run ss tn b s n as t m) :
    Reached ss tn b (fun _ _ => True) t m :=
  Reached.of_run (h.mono fun _ _ _ => trivial) (fun _ _ => trivial) hr

theorem fired_of_step {c d : Config} {a : Action} (hs : c.step ss a = some d) :
    c.fired ⊆ d.fired := by
  rcases Config.step_eq_some.mp hs with ⟨le, k, j, te, -, -, -, -, hf⟩ |
    ⟨le, te, b, -, -, -, -, -, -, -, hf⟩
  all_goals
    obtain ⟨removed, as, -, -, -, rfl⟩ := Config.fire_eq_some.mp hf
    exact List.subset_append_left _ _

theorem fired_of_runWith {b : Bool} {c d : Config} {as : List Action}
    (hr : c.runWith ss b as = some d) : c.fired ⊆ d.fired := by
  induction as generalizing c with
  | nil =>
    obtain rfl := Option.some.inj hr
    exact fun p hp => hp
  | cons a as ih =>
    obtain ⟨e, he, hr⟩ := Config.runWith_cons.mp hr
    refine fun p hp => ih hr ?_
    rcases Config.stepWith_eq_some.mp he with ⟨-, hs⟩ | ⟨e', le, -, -, hs, hf⟩
    · exact fired_of_step hs hp
    · rw [(Config.fireRest_spec hf).2.2]
      exact List.mem_append_left _ (fired_of_step hs hp)

/-- Going on from a state without negative durations never lowers its makespan. -/
theorem makespan_mono {b : Bool} {n m : ℕ} {as : List Action} {t : State} (hx : tn.Exact)
    (ht : ss.isTemporal = true) (h : Reached ss tn b (OpensNonneg ss) s n)
    (hr : Run ss tn b s n as t m) : makespan tn s ≤ makespan tn t := by
  obtain ⟨c, ids, hc, href, hsch, hlower⟩ := h.refines hx
  obtain ⟨d, ids', hd, href', hk⟩ := href.run hc.wellFormed hr
  have hwd := hc.wellFormed.runWith hd
  have hschd : Schedulable ss d := by
    rcases hk with rfl | hk
    · exact hsch
    · exact href'.schedulable hwd hx hk
  obtain ⟨hzero, σ, hv, hm, hpast⟩ := href'.exists_valid_makespan hx hwd ht hschd
  obtain ⟨is, his, -⟩ := new_of_runWith hd
  obtain ⟨hpath, -⟩ := href.timed ht
  cases hlast : c.fired.getLast? with
  | none =>
    have hempty : makespan tn s = 0 := by simp [makespan, hpath, List.getLast?_eq_none_iff.mp hlast]
    rw [hempty]
    exact hzero
  | some p =>
    have hpm : p ∈ c.fired := List.mem_of_getLast? hlast
    have hmeets : MeetsDeadline ss c σ := by
      intro e he j hj
      refine hm e he j ?_
      rw [his, List.length_append]
      omega
    have hle := href.makespan_le hx hc.wellFormed hc.progress ht (hlower fun _ _ h => h)
      (valid_of_runWith hc.wellFormed hd hv) hmeets hlast
    have hact : d.actionOf p.1 = c.actionOf p.1 := by
      have hlt := (hc.wellFormed.fired p hpm).1
      simp only [Config.actionOf, his, List.getElem?_append_left hlt]
    calc makespan tn s ≤ time ss c σ p := hle
      _ = time ss d σ p := (time_congr hact).symm
      _ ≤ makespan tn t := hpast p (fired_of_runWith hd hpm)

/-- The network keeps every schedule of the path: the reduced edges say all
there is to say, the plan starts at 0, and the makespan is the earliest time of
the last event, which only grows. -/
theorem network_exact {b : Bool} {n : ℕ} (hx : tn.Exact) (ht : ss.isTemporal = true)
    (hdl : ∀ d, ss.deadline = some d → 0 ≤ d) (h : Reached ss tn b (OpensNonneg ss) s n) :
    ∃ log, s.temporalNetwork = some log ∧
      (∀ τ, Solves τ log ↔ Solves τ (fullNetwork ss log s)) ∧
      tn.distances log .startPlan = 0 ∧
      (∀ τ, Solves τ log → ∀ p ∈ s.path, τ .startPlan ≤ τ (.event p.1 p.2.1 p.2.2)) ∧
      (∀ p, s.path.getLast? = some p → IsLeast
        {x | ∃ τ, Solves τ log ∧ x = τ (.event p.1 p.2.1 p.2.2) - τ .startPlan} (makespan tn s)) ∧
      ∀ as t m, Run ss tn b s n as t m → makespan tn s ≤ makespan tn t := by
  obtain ⟨c, ids, hc, href, hsch, hlower⟩ := h.refines hx
  have hnonneg := hlower fun _ _ h => h
  have hwf := hc.wellFormed
  obtain ⟨hpath, hn, -, log, hlog, hsol⟩ := href.timed ht
  obtain ⟨σ, hv, hm⟩ := hsch ht
  obtain ⟨ρ, hρ, h0, hstart, -⟩ := exists_placed_nonneg hwf hc.progress hn href.length hnonneg hv hm hdl
  have hcons : Consistent log := ⟨ρ, (hsol ρ).mpr hρ⟩
  have hzero : tn.distances log .startPlan = 0 := by
    have hle := hx.least log ρ ((hsol ρ).mpr hρ) h0 .startPlan
    have hge := hx.nonneg log .startPlan hcons
    linarith
  refine ⟨log, hlog, solves_fullNetwork hx h ht hlog, hzero, fun τ hτ p hp => ?_, fun p hlast => ⟨?_, ?_⟩,
    fun as t m hr => makespan_mono hx ht h hr⟩
  · rw [hpath] at hp
    obtain ⟨q, hq, rfl⟩ := List.mem_map.mp hp
    have hf := hwf.fired q hq
    have hplaced := (hsol τ).mp hτ
    have hle := time_nonneg hwf hc.progress hplaced.valid hf.1 hf.2
    rw [hplaced.time hf.1 hf.2] at hle
    exact sub_nonneg.mp hle
  · refine ⟨_, hx.solves log hcons, ?_⟩
    simp only [makespan, hlast, hlog, hzero, neg_zero, sub_zero]
    rfl
  · intro x hx'
    obtain ⟨τ, hτ, rfl⟩ := hx'
    rw [hpath, List.getLast?_map, Option.map_eq_some_iff] at hlast
    obtain ⟨q, hlast, rfl⟩ := hlast
    have hf := hwf.fired q (List.mem_of_getLast? hlast)
    have hplaced := (hsol τ).mp hτ
    have hmeets : MeetsDeadline ss c (scheduleOf c ids τ) := by
      intro d hd j hj
      have hs := hplaced.stop j hj
      have := hplaced.deadline d hd
      simp only [scheduleOf]
      linarith
    have hle := href.makespan_le hx hwf hc.progress ht hnonneg hplaced.valid hmeets hlast
    rw [hplaced.time hf.1 hf.2] at hle
    exact hle

end Invariant

section Race

attribute [local instance] Callables.empty

theorem network_exact_race : ∃ s n log, Reached (race 1) .earliest false (OpensNonneg (race 1)) s n ∧
    s.assignments = [.bool true, .bool false] ∧ s.temporalNetwork = some log ∧
    ∀ τ, Solves τ log ↔ Solves τ (fullNetwork (race 1) log s) := by
  have hx := DeltaSimpleTemporalNetwork.earliest_exact
  have hsch : Schedulable (race 1) raceSlow := fun _ => ⟨_, raceSlow_schedulable (.inl rfl)⟩
  obtain ⟨s, n, ids, hs, href⟩ := Reached.of_config hx race_opensNonneg rfl (race_slow 1) hsch
  obtain ⟨log, hlog, hsame, -⟩ := network_exact hx rfl (fun d hd => by
    obtain rfl := Option.some.inj hd
    decide +kernel) hs
  exact ⟨s, n, log, hs, href.assignments, hlog, hsame⟩

/-- With a negative duration the makespan is later than the event can happen. -/
theorem network_not_exact : ¬ ∀ s n, Reached (race (-5)) .earliest false (fun _ _ => True) s n →
    ∃ log, s.temporalNetwork = some log ∧ ∀ p, s.path.getLast? = some p → IsLeast
      {x | ∃ τ, Solves τ log ∧ x = τ (.event p.1 p.2.1 p.2.2) - τ .startPlan}
      (makespan .earliest s) := by
  intro h
  have hx := DeltaSimpleTemporalNetwork.earliest_exact
  have hmeets : Valid (race (-5)) (raceFirst (-5)) (fun _ => (0, -5)) ∧
      MeetsDeadline (race (-5)) (raceFirst (-5)) fun _ => (0, -5) := by decide +kernel
  have hfirst : Schedulable (race (-5)) (raceFirst (-5)) := fun _ => ⟨_, hmeets⟩
  obtain ⟨s, n, ids, hs, href⟩ := Reached.of_config (P := fun _ _ => True) hx
    (fun _ _ => trivial) rfl (race_first (-5)) hfirst
  have hwf : Config.WellFormed (race (-5)) (raceFirst (-5)) :=
    Config.Reachable.wellFormed ⟨raceStart, _, rfl, race_first (-5)⟩
  obtain ⟨log, hlog, hleast⟩ := h s n hs
  obtain ⟨hpath, hn, -, log', hlog', hsol⟩ := href.timed rfl
  obtain rfl := Option.some.inj (hlog.symm.trans hlog')
  have hlast : s.path.getLast? = some (key (raceFirst (-5)) ids (0, 0)) := by
    rw [hpath]
    rfl
  obtain ⟨stop, -, hstop, hd⟩ := exists_stop hmeets.2 fun d hd => by
    obtain rfl := Option.some.inj hd
    decide +kernel
  have hplaced := placed_placement stop hwf hn href.length hmeets.1 hstop hd
  have hle := (hleast _ hlast).2 ⟨_, (hsol _).mpr hplaced, rfl⟩
  have hge := race_makespan_first href hfirst
  have htime := hplaced.time (p := (0, 0)) (by decide) (by decide)
  have hzero : Schedule.time (race (-5)) (raceFirst (-5))
      (scheduleOf (raceFirst (-5)) ids (placement (race (-5)) (raceFirst (-5)) ids (fun _ => (0, -5))
        stop)) (0, 0) = 0 := by
    rw [Schedule.time, scheduleOf_placement hn (by rw [href.length]; decide)]
    decide +kernel
  rw [hzero] at htime
  have h5 : (5 : ℚ) ≤ 0 := hge.trans (hle.trans_eq htime.symm)
  norm_num at h5

end Race

end TamerLite
