import TamerLite.Acceptance
import TamerLite.TypedOperators

/-! The two cores evaluate typed expressions alike and keep numbers canonical,
along every path of events. -/

namespace TamerLite

open SearchSpace

section Agreement

variable [RawCallables] {fluents ts : List ValueType} {state res : List Value} {t : ValueType}

theorem coerceResult_typed {r : RawCallables.Raw} {rt : IfReturnType} {v : Value}
    (h : coerceResult r rt = some v) : v.Canonical ∧ v.type = rt.type := by
  cases rt with
  | bool | int | object =>
    obtain ⟨_, -, rfl⟩ := Option.map_eq_some_iff.mp h
    exact ⟨trivial, rfl⟩
  | real =>
    obtain ⟨q, -, rfl⟩ := Option.map_eq_some_iff.mp h
    exact ⟨Value.canonical_ofConstant (.num q), Value.type_ofConstant (.num q)⟩

/-- One node, evaluated to the same value in both cores, canonical and of its type. -/
theorem evalNode_agrees {e : ExpressionNode} (hs : Typed fluents state) (hr : Typed ts res)
    (ht : nodeType fluents ts e = some t) :
    PythonCore.evalNode state res e = RustCore.evalNode state res e ∧
      ∀ v, PythonCore.evalNode state res e = some v → v.Canonical ∧ v.type = t := by
  cases e with
  | constant c =>
    refine ⟨rfl, fun v hv => ?_⟩
    obtain rfl := Option.some.inj ht
    obtain rfl := Option.some.inj hv
    exact ⟨Value.canonical_ofConstant c, Value.type_ofConstant c⟩
  | fluent f =>
    refine ⟨rfl, fun v hv => ⟨hs.canonical v (List.mem_of_getElem? hv), ?_⟩⟩
    simp only [nodeType, ← hs.types, List.getElem?_map] at ht
    rw [show state[f.idx]? = some v from hv] at ht
    exact Option.some.inj ht
  | interpretedFunction fn rt operands =>
    refine ⟨rfl, fun v hv => ?_⟩
    simp only [PythonCore.evalNode, Option.bind_eq_bind, Option.bind_eq_some_iff] at hv
    obtain ⟨args, -, r, -, hv⟩ := hv
    simp only [nodeType, Option.bind_eq_bind, Option.bind_eq_some_iff, Option.pure_def,
      Option.some.injEq] at ht
    obtain ⟨_, -, rfl⟩ := ht
    exact coerceResult_typed hv
  | operator kind operands =>
    simp only [nodeType, Option.bind_eq_bind, Option.bind_eq_some_iff] at ht
    obtain ⟨us, hus, ht⟩ := ht
    obtain ⟨cs, rfl⟩ : ∃ cs, res = cs.map Value.ofConstant :=
      ⟨res.map Value.toConstant, (Value.map_toConstant hr.canonical).symm⟩
    have hts : ts = cs.map ConstantNode.type := by simp [← hr.types, Function.comp_def]
    rw [hts] at hus
    obtain ⟨vs, hvs, rfl⟩ := exists_operands hus
    have hag := operator_agrees hvs ht
    refine ⟨hag.python.trans hag.rust.symm, fun v hv => ?_⟩
    rw [PythonCore.evalNode, hag.python, Option.map_eq_some_iff] at hv
    obtain ⟨c, hc, rfl⟩ := hv
    exact ⟨Value.canonical_ofConstant c, (Value.type_ofConstant c).trans (hag.type c hc)⟩

/-- The nodes after some typed ones. -/
theorem evaluateNodes_agrees {exp : Expression} {ts' : List ValueType} (hs : Typed fluents state)
    (hr : Typed ts res)
    (ht : exp.foldlM (fun ts e => (nodeType fluents ts e).map fun t => ts ++ [t]) ts = some ts') :
    exp.foldlM (fun res e => (PythonCore.evalNode state res e).map fun v => res ++ [v]) res =
        exp.foldlM (fun res e => (RustCore.evalNode state res e).map fun v => res ++ [v]) res ∧
      ∀ res', exp.foldlM (fun res e => (PythonCore.evalNode state res e).map fun v => res ++ [v])
        res = some res' → Typed ts' res' := by
  induction exp generalizing ts res with
  | nil =>
    obtain rfl := Option.some.inj ht
    exact ⟨rfl, fun res' h => Option.some.inj h ▸ hr⟩
  | cons e exp ih =>
    rw [List.foldlM_cons, Option.bind_eq_bind, Option.bind_eq_some_iff] at ht
    obtain ⟨ts₁, ht₁, ht⟩ := ht
    obtain ⟨t, hte, rfl⟩ := Option.map_eq_some_iff.mp ht₁
    obtain ⟨he, hv⟩ := evalNode_agrees hs hr hte
    rw [List.foldlM_cons, List.foldlM_cons, ← he]
    cases hp : PythonCore.evalNode state res e with
    | none => exact ⟨rfl, fun res' h => absurd h (by simp)⟩
    | some v =>
      obtain ⟨hc, hτ⟩ := hv v hp
      exact ih (hr.append hc hτ) ht

theorem evaluate_agrees {exp : Expression} (hs : Typed fluents state)
    (ht : typeOf fluents exp = some t) :
    PythonCore.evaluate exp state = RustCore.evaluate exp state ∧
      ∀ v, PythonCore.evaluate exp state = some v → v.Canonical ∧ v.type = t := by
  simp only [typeOf, Option.bind_eq_bind, Option.bind_eq_some_iff] at ht
  obtain ⟨ts, hts, ht⟩ := ht
  have hnil : Typed [] [] := ⟨by simp, rfl⟩
  obtain ⟨he, hr⟩ := evaluateNodes_agrees hs hnil hts
  refine ⟨by rw [PythonCore.evaluate, RustCore.evaluate, evaluateNodes, evaluateNodes, he], ?_⟩
  intro v hv
  simp only [PythonCore.evaluate, evaluateNodes, Option.bind_eq_bind, Option.bind_eq_some_iff] at hv
  obtain ⟨res, hres, hv⟩ := hv
  have hres := hr res hres
  refine ⟨hres.canonical v (List.mem_of_getLast? hv), ?_⟩
  rw [← hres.types, List.getLast?_map, hv] at ht
  exact Option.some.inj ht

/-! ### Reachable states -/

/-- What the effects of an event leave stored. -/
def storeEffects (evaluate : Expression → List Value → Option Value) (effects : List Effect)
    (old new : List Value) : Option (List Value) :=
  effects.foldlM (fun a eff => (evaluate eff.value old).map (a.set eff.fluent.idx)) new

/-- What a core stores after the events of a path. -/
def stored (evaluate : Expression → List Value → Option Value) (ss : SearchSpace)
    (path : List (Action × ℕ × ℕ)) : Option (List Value) :=
  path.foldlM (fun vs p => do storeEffects evaluate (← ss.event p.1 p.2.1).2.effects vs vs)
    (ss.initialState.map .ofConstant)

/-- Every effect gives its fluent a value of the fluent's type. -/
structure SearchSpace.WellTyped (ss : SearchSpace) (fluents : List ValueType) : Prop where
  initial : ss.initialState.map ConstantNode.type = fluents
  effects : ∀ {a k te}, ss.event a k = some te → ∀ eff ∈ te.2.effects,
    ∃ t, fluents[eff.fluent.idx]? = some t ∧ typeOf fluents eff.value = some t

omit [RawCallables] in
theorem Typed.set {vs : List Value} {i : ℕ} {v : Value} (h : Typed fluents vs)
    (hi : fluents[i]? = some t) (hc : v.Canonical) (ht : v.type = t) :
    Typed fluents (vs.set i v) := by
  refine ⟨fun w hw => ?_, ?_⟩
  · rcases List.mem_or_eq_of_mem_set hw with hw | rfl
    · exact h.canonical w hw
    · exact hc
  · rw [List.map_set, h.types, ht]
    obtain ⟨hlt, rfl⟩ := List.getElem?_eq_some_iff.mp hi
    exact List.set_getElem_self hlt

omit [RawCallables] in
theorem foldlM_agrees {α β : Type} {f g : α → β → Option α} {P : α → Prop} {l : List β} {a : α}
    (h : ∀ a, P a → ∀ b ∈ l, f a b = g a b ∧ ∀ a', f a b = some a' → P a') (ha : P a) :
    l.foldlM f a = l.foldlM g a ∧ ∀ a', l.foldlM f a = some a' → P a' := by
  induction l generalizing a with
  | nil => exact ⟨rfl, fun a' h => Option.some.inj h ▸ ha⟩
  | cons b l ih =>
    obtain ⟨heq, hp⟩ := h a ha b List.mem_cons_self
    rw [List.foldlM_cons, List.foldlM_cons, ← heq]
    cases hb : f a b with
    | none => exact ⟨rfl, fun a' h => absurd h (by simp)⟩
    | some a' => exact ih (fun a ha b hb => h a ha b (List.mem_cons_of_mem _ hb)) (hp a' hb)

/-- Typed effects store the same in both cores. -/
theorem storeEffects_agrees {effects : List Effect} {old new : List Value}
    (he : ∀ eff ∈ effects, ∃ t, fluents[eff.fluent.idx]? = some t ∧
      typeOf fluents eff.value = some t) (ho : Typed fluents old) (hn : Typed fluents new) :
    storeEffects PythonCore.evaluate effects old new =
        storeEffects RustCore.evaluate effects old new ∧
      ∀ vs, storeEffects PythonCore.evaluate effects old new = some vs → Typed fluents vs := by
  refine foldlM_agrees (fun a ha eff hm => ?_) hn
  obtain ⟨t, hi, ht⟩ := he eff hm
  obtain ⟨heq, hv⟩ := evaluate_agrees ho ht
  refine ⟨by rw [heq], fun vs h => ?_⟩
  obtain ⟨v, hp, rfl⟩ := Option.map_eq_some_iff.mp h
  obtain ⟨hc, hτ⟩ := hv v hp
  exact ha.set hi hc hτ

omit [RawCallables] in
theorem typed_ofConstant {cs : List ConstantNode} (h : cs.map ConstantNode.type = ts) :
    Typed ts (cs.map .ofConstant) := by
  refine ⟨fun v hv => ?_, by simp [← h, Function.comp_def]⟩
  obtain ⟨c, -, rfl⟩ := List.mem_map.mp hv
  exact Value.canonical_ofConstant c

theorem stored_agrees {ss : SearchSpace} (hss : ss.WellTyped fluents)
    (path : List (Action × ℕ × ℕ)) :
    stored PythonCore.evaluate ss path = stored RustCore.evaluate ss path ∧
      ∀ vs, stored PythonCore.evaluate ss path = some vs → Typed fluents vs := by
  have hinit : Typed fluents (ss.initialState.map .ofConstant) := typed_ofConstant hss.initial
  refine foldlM_agrees (fun vs hvs p _ => ?_) hinit
  cases hev : ss.event p.1 p.2.1 with
  | none => exact ⟨rfl, fun ws h => absurd h (by simp)⟩
  | some te => exact storeEffects_agrees (hss.effects hev) hvs hvs

omit [RawCallables] in
/-- Between typed values, Python's `==` is structural equality. -/
theorem equalAssignments_iff {vs ws : List Value} (hv : Typed ts vs) (hw : Typed ts ws) :
    PythonCore.equalAssignments vs ws = true ↔ vs = ws := by
  induction vs generalizing ts ws with
  | nil =>
    have hlen : ws.map Value.type = [] := hw.types.trans hv.types.symm
    obtain rfl := List.map_eq_nil_iff.mp hlen
    simp [PythonCore.equalAssignments]
  | cons v vs ih =>
    have htypes : ws.map Value.type = v.type :: vs.map Value.type := hw.types.trans hv.types.symm
    obtain ⟨w, ws, rfl, hvw, hws⟩ := List.map_eq_cons_iff.mp htypes
    have hcv := Value.ofConstant_toConstant (hv.canonical v List.mem_cons_self)
    have hcw := Value.ofConstant_toConstant (hw.canonical w List.mem_cons_self)
    have htail := ih ⟨fun x hx => hv.canonical x (List.mem_cons_of_mem _ hx), rfl⟩
      ⟨fun x hx => hw.canonical x (List.mem_cons_of_mem _ hx), hws⟩
    have hhead : PythonCore.equal v w = true ↔ v = w := by
      have htype : v.toConstant.type = w.toConstant.type := by
        rw [← Value.type_ofConstant, ← Value.type_ofConstant, hcv, hcw, hvw]
      rw [← hcv, ← hcw, PythonCore.equal_ofConstant, eqv_of_type htype, decide_eq_true_iff,
        Value.ofConstant_injective.eq_iff]
    rw [PythonCore.equalAssignments, Bool.and_eq_true, hhead, htail, List.cons.injEq]

end Agreement

/-! ### Runs of the search -/

section Runs

variable [Callables] {ss : SearchSpace} {tn : DeltaSimpleTemporalNetwork} {b : Bool}

/-- The assignments the events of a path lead to. -/
def assignmentsAfter (ss : SearchSpace) (path : List (Action × ℕ × ℕ)) : Option Assignments :=
  path.foldlM (fun a p => do applyEffects (← ss.event p.1 p.2.1).2.effects a a) ss.initialState

/-- The state's assignments are what the events of its path lead to. -/
def FollowsPath (ss : SearchSpace) (s : State) : Prop :=
  assignmentsAfter ss s.path = some s.assignments

theorem FollowsPath.expandEvent {s n s' : State} {a : Action} {le : List (Timing × Event)}
    {te : Timing × Event} {k id : ℕ} {po : Option PendingOpening} (h : FollowsPath ss s)
    (hp : n.path = s.path) (ha : n.assignments = s.assignments) (hle : ss.events a = some le)
    (hte : le[k]? = some te) (he : ss.expandEvent tn s n te.2 k id po = some s') :
    FollowsPath ss s' := by
  obtain ⟨removed, as, -, has, -, net, -, rfl⟩ := expandEvent_eq_some.mp he
  obtain ⟨hact, hpos⟩ := (ss.events_numbered hle).2 hte
  have hev : ss.event te.2.action te.2.pos = some te := by
    rw [hact, hpos, SearchSpace.event, hle, Option.bind_some, hte]
  rw [ha] at has
  show assignmentsAfter ss (n.path ++ [(te.2.action, te.2.pos, id)]) = some as
  rw [FollowsPath, assignmentsAfter] at h
  rw [hp, assignmentsAfter, List.foldlM_append, h]
  simp [hev, has]

theorem FollowsPath.expandRest {s s' : State} {a : Action} {le rest : List (Timing × Event)}
    {k id : ℕ} (h : FollowsPath ss s) (hle : ss.events a = some le) (hrest : rest = le.drop k)
    (he : ss.expandRest tn rest k id s = some s') : FollowsPath ss s' := by
  induction rest generalizing s k id with
  | nil => exact Option.some.inj he ▸ h
  | cons te rest ih =>
    have hte : le[k]? = some te := by
      have := congrArg (fun l => l[0]?) hrest
      simpa using this.symm
    obtain ⟨t, ⟨-, ht⟩, he⟩ := expandRest_cons.mp he
    have hf : FollowsPath ss t :=
      FollowsPath.expandEvent (s := { s with temporalNetwork := none }) h (by rfl) (by rfl) hle
      hte ht
    exact ih hf (by simpa using congrArg List.tail hrest) he

theorem FollowsPath.openAction {s n s' : State} {a : Action} {le : List (Timing × Event)}
    {te : Timing × Event} {d : ℕ} {pin : Bool} (h : FollowsPath ss s) (hp : n.path = s.path)
    (ha : n.assignments = s.assignments) (hle : ss.events a = some le) (hte : le[0]? = some te)
    (he : ss.openAction tn d s n a le pin = some s') : FollowsPath ss s' := by
  rw [openAction_eq hle hte] at he
  refine FollowsPath.expandEvent h ?_ ?_ hle hte he
  · exact hp
  · exact ha

theorem FollowsPath.step {s s' : State} {a : Action} {d : ℕ} (h : FollowsPath ss s)
    (he : ss.getSuccessorStateWithCompression tn d s a b = some s') : FollowsPath ss s' := by
  have hplain : ∀ {t}, ss.getSuccessorStateWithCompression tn d s a false = some t →
      FollowsPath ss t := by
    intro t ht
    rcases getSuccessorState_eq_some.mp ht with ⟨le, k, id, te, hle, -, hte, -, -, ht⟩ |
      ⟨le, te, hle, -, -, -, hte, -, -, ht⟩
    · exact h.expandEvent (by rfl) (by rfl) hle hte ht
    · exact h.openAction (by rfl) (by rfl) hle hte ht
  rcases getSuccessorStateWithCompression_eq_some.mp he with ⟨-, he⟩ |
    ⟨-, le, t, next, hle, ht, -, he⟩
  · exact hplain he
  · have hf : FollowsPath ss t := hplain ht
    exact FollowsPath.expandRest (s := { t with todo := t.todo.erase a }) hf hle
      List.drop_one.symm he

theorem followsPath_of_run {n m : ℕ} {s₀ s : State} {as : List Action}
    (h₀ : ss.initial tn n = some s₀) (hr : Run ss tn b s₀ (initialCounter ss n) as s m) :
    FollowsPath ss s := by
  have hempty : FollowsPath ss (emptyState ss) := rfl
  have hinit : FollowsPath ss s₀ := by
    rcases initial_eq_some.mp h₀ with ⟨-, rfl⟩ | ⟨a, le, te, -, hle, hte, -, -, hs⟩
    · exact hempty
    · exact hempty.openAction (by rfl) (by rfl) hle hte hs
  generalize initialCounter ss n = c at hr
  induction hr with
  | refl => exact hinit
  | step _ _ hs ih => exact ih.step hs

end Runs

section Stored

variable [RawCallables] [Callables]

/-- The callables return what the raw ones do, once coerced. -/
def CallablesAgree : Prop := ∀ fn (args : List ConstantNode) rt,
  ((RawCallables.function fn (args.map .ofConstant)).bind fun r => coerceResult r rt) =
    ((Callables.function fn args).bind (ConstantNode.coerce rt)).map .ofConstant

variable (hc : CallablesAgree) {fluents ts : List ValueType} {a res : List ConstantNode}
  {t : ValueType}

include hc

theorem evalNode_python {e : ExpressionNode}
    (hr : res.map ConstantNode.type = ts) (ht : nodeType fluents ts e = some t) :
    PythonCore.evalNode (a.map .ofConstant) (res.map .ofConstant) e =
      (evalNode (getValue a) res e).map .ofConstant := by
  cases e with
  | constant c => rfl
  | fluent f => simp [PythonCore.evalNode, evalNode, getValue]
  | interpretedFunction fn rt operands =>
    simp only [nodeType, Option.bind_eq_bind, Option.bind_eq_some_iff, ← hr] at ht
    obtain ⟨us, hus, -⟩ := ht
    obtain ⟨vs, hvs, -⟩ := exists_operands hus
    simp only [PythonCore.evalNode, evalNode, Option.bind_eq_bind, hvs.mapM, hvs.ofConstant.mapM,
      Option.bind_some]
    exact hc fn vs rt
  | operator kind operands =>
    simp only [nodeType, Option.bind_eq_bind, Option.bind_eq_some_iff, ← hr] at ht
    obtain ⟨us, hus, ht⟩ := ht
    obtain ⟨vs, hvs, rfl⟩ := exists_operands hus
    exact (operator_agrees hvs ht).python

theorem evalNodes_python {exp : Expression} {ts' : List ValueType}
    (ha : a.map ConstantNode.type = fluents) (hr : res.map ConstantNode.type = ts)
    (ht : exp.foldlM (fun ts e => (nodeType fluents ts e).map fun t => ts ++ [t]) ts = some ts') :
    exp.foldlM (fun vs e => (PythonCore.evalNode (a.map .ofConstant) vs e).map fun v => vs ++ [v])
        (res.map .ofConstant) =
      (evalNodes (getValue a) exp res).map (List.map .ofConstant) := by
  have hs : Typed fluents (a.map .ofConstant) := typed_ofConstant ha
  induction exp generalizing ts res with
  | nil => rfl
  | cons e exp ih =>
    rw [List.foldlM_cons, Option.bind_eq_bind, Option.bind_eq_some_iff] at ht
    obtain ⟨ts₁, ht₁, ht⟩ := ht
    obtain ⟨t, hte, rfl⟩ := Option.map_eq_some_iff.mp ht₁
    have he := evalNode_python hc (a := a) hr hte
    have hv := (evalNode_agrees hs (typed_ofConstant hr) hte).2
    rw [List.foldlM_cons, evalNodes, List.foldlM_cons, he] at *
    cases hp : evalNode (getValue a) res e with
    | none => rfl
    | some c =>
      have hct : c.type = t := by
        have := (hv (.ofConstant c) (by rw [hp]; rfl)).2
        rwa [Value.type_ofConstant] at this
      have hr' : (res ++ [c]).map ConstantNode.type = ts ++ [t] := by simp [hr, hct]
      have := ih hr' ht
      rw [List.map_append] at this
      exact this

theorem evaluate_python {exp : Expression} (ha : a.map ConstantNode.type = fluents)
    (ht : typeOf fluents exp = some t) :
    PythonCore.evaluate exp (a.map .ofConstant) = (evaluate exp a).map .ofConstant := by
  simp only [typeOf, Option.bind_eq_bind, Option.bind_eq_some_iff] at ht
  obtain ⟨ts, hts, -⟩ := ht
  have hnil : ([] : List ConstantNode).map ConstantNode.type = [] := rfl
  have h := evalNodes_python hc ha hnil hts
  rw [List.map_nil] at h
  simp only [PythonCore.evaluate, evaluateNodes, evaluate, Option.bind_eq_bind, h]
  cases evalNodes (getValue a) exp [] with
  | none => rfl
  | some res => simp [List.getLast?_map]

theorem storeEffects_python {effects : List Effect} {old : Assignments} (new : Assignments)
    (he : ∀ eff ∈ effects, ∃ t, fluents[eff.fluent.idx]? = some t ∧
      typeOf fluents eff.value = some t) (ho : old.map ConstantNode.type = fluents) :
    storeEffects PythonCore.evaluate effects (old.map .ofConstant) (new.map .ofConstant) =
      (applyEffects effects old new).map (List.map .ofConstant) := by
  induction effects generalizing new with
  | nil => rfl
  | cons eff effects ih =>
    obtain ⟨t, -, ht⟩ := he eff List.mem_cons_self
    have hv := evaluate_python hc ho ht
    have htail := fun e h => he e (List.mem_cons_of_mem eff h)
    rw [storeEffects, applyEffects, List.foldlM_cons, List.foldlM_cons, hv]
    cases hp : evaluate eff.value old with
    | none => rfl
    | some v =>
      have hset := ih (new.set eff.fluent.idx v) htail
      rw [List.map_set] at hset
      exact hset

/-- In a state the search reaches, the cores store its assignments. -/
theorem stored_of_run {ss : SearchSpace} {tn : DeltaSimpleTemporalNetwork} {b : Bool} {n m : ℕ}
    {s₀ s : State} {as : List Action} (hss : ss.WellTyped fluents)
    (h₀ : ss.initial tn n = some s₀) (hr : Run ss tn b s₀ (initialCounter ss n) as s m) :
    stored PythonCore.evaluate ss s.path = some (s.assignments.map .ofConstant) := by
  have hf := followsPath_of_run h₀ hr
  have hstored : ∀ path as', assignmentsAfter ss path = some as' →
      stored PythonCore.evaluate ss path = some (as'.map .ofConstant) := by
    intro path
    induction path using List.reverseRecOn with
    | nil =>
      intro as' h
      exact congrArg (fun x => some (x.map Value.ofConstant)) (Option.some.inj h)
    | append_singleton path p ih =>
      intro as' h
      rw [assignmentsAfter, List.foldlM_append, Option.bind_eq_bind, Option.bind_eq_some_iff] at h
      obtain ⟨as₁, h₁, h⟩ := h
      have hs₁ := ih as₁ h₁
      have htyped := (stored_agrees hss path).2 _ hs₁
      rw [stored, List.foldlM_append, ← stored, hs₁]
      cases hev : ss.event p.1 p.2.1 with
      | none => simp [hev] at h
      | some te =>
        have htypes : as₁.map ConstantNode.type = fluents := by
          simpa [Function.comp_def] using htyped.types
        have hp := storeEffects_python hc as₁ (hss.effects hev) htypes
        simp only [List.foldlM_cons, List.foldlM_nil, hev, Option.bind_eq_bind, Option.bind_some,
          Option.pure_def, Option.bind_fun_some] at h ⊢
        rw [hp, h]
        rfl
  exact hstored s.path s.assignments hf

end Stored

/-- The two evaluators agree on typed expressions and keep numbers canonical, so
whatever events lead to two states, the cores store the same in them and
Rust's equality of assignments is Python's. -/
theorem evaluators_agree [RawCallables] {fluents : List ValueType} :
    (∀ exp t state, typeOf fluents exp = some t → Typed fluents state →
      PythonCore.evaluate exp state = RustCore.evaluate exp state ∧
        ∀ v, PythonCore.evaluate exp state = some v → v.Canonical ∧ v.type = t) ∧
    ∀ ss : SearchSpace, ss.WellTyped fluents →
      (∀ path path', stored PythonCore.evaluate ss path = stored RustCore.evaluate ss path ∧
        ∀ vs ws, stored PythonCore.evaluate ss path = some vs →
          stored PythonCore.evaluate ss path' = some ws →
          (∀ v ∈ vs, v.Canonical) ∧ (vs = ws ↔ PythonCore.equalAssignments vs ws = true)) ∧
      ∀ [Callables], CallablesAgree → ∀ tn b n m s₀ s as, ss.initial tn n = some s₀ →
        Run ss tn b s₀ (initialCounter ss n) as s m →
        stored PythonCore.evaluate ss s.path = some (s.assignments.map .ofConstant) := by
  refine ⟨fun exp t state ht hs => evaluate_agrees hs ht, fun ss hss => ⟨fun path path' => ?_, ?_⟩⟩
  · obtain ⟨heq, htyped⟩ := stored_agrees hss path
    refine ⟨heq, fun vs ws hvs hws => ?_⟩
    have hv := htyped vs hvs
    exact ⟨hv.canonical, (equalAssignments_iff hv ((stored_agrees hss path').2 ws hws)).symm⟩
  · intro _ hc tn b n m s₀ s as h₀ hr
    exact stored_of_run hc hss h₀ hr

/-- No callable is called. -/
abbrev RawCallables.empty : RawCallables where
  Raw := Unit
  function := fun _ _ => none
  toBool := fun _ => none
  toInt := fun _ => none
  toFraction := fun _ => none
  toObject := fun _ => none

section Halves

attribute [local instance] RawCallables.empty Callables.empty

/-- An action that adds a half to the only fluent. -/
def halves : SearchSpace :=
  .ofTable [(none, [(⟨true, 0⟩, ⟨⟨0⟩, 0, [.constant (.bool true)], [], [],
    [⟨⟨0⟩, [.fluent ⟨0⟩, .constant (.num (1 / 2)), .operator .plus [0, 1]]⟩]⟩)])]
    [.num (1 / 2)] [.fluent ⟨0⟩]

theorem halves_wellTyped : halves.WellTyped [.number] where
  initial := rfl
  effects := by
    intro a k te hte eff heff
    match a, k with
    | ⟨0⟩, 0 =>
      obtain rfl := Option.some.inj hte
      obtain rfl := List.mem_singleton.mp heff
      exact ⟨.number, rfl, rfl⟩
    | ⟨0⟩, k + 1 =>
      have hnone : halves.event ⟨0⟩ (k + 1) = none := rfl
      rw [hnone] at hte
      contradiction
    | ⟨n + 1⟩, k => exact absurd hte (by simp [halves, SearchSpace.event, SearchSpace.ofTable])

theorem evaluators_agree_halves :
    PythonCore.evaluate [.fluent ⟨0⟩, .constant (.num (1 / 2)), .operator .plus [0, 1]]
        [.fraction (1 / 2)] =
      RustCore.evaluate [.fluent ⟨0⟩, .constant (.num (1 / 2)), .operator .plus [0, 1]]
        [.fraction (1 / 2)] ∧
    ((∀ v ∈ [Value.int 1], v.Canonical) ∧ ([Value.int 1] = [.fraction (3 / 2)] ↔
      PythonCore.equalAssignments [.int 1] [.fraction (3 / 2)] = true)) ∧
    ∃ s, halves.initial .earliest 0 = some s ∧
      stored PythonCore.evaluate halves s.path = some (s.assignments.map .ofConstant) := by
  obtain ⟨heval, hstates⟩ := @evaluators_agree _ [.number]
  obtain ⟨hpaths, hruns⟩ := hstates halves halves_wellTyped
  refine ⟨(heval _ .number _ (by decide +kernel) ⟨?_, rfl⟩).1,
    (hpaths [(⟨0⟩, 0, 0)] [(⟨0⟩, 0, 0), (⟨0⟩, 0, 1)]).2 _ _ (by decide +kernel) (by decide +kernel),
    _, rfl, ?_⟩
  · intro v hv
    obtain rfl := List.mem_singleton.mp hv
    show (1 / 2 : ℚ).den ≠ 1
    decide +kernel
  · exact hruns (fun _ _ _ => rfl) .earliest false 0 0 _ _ [] rfl (.refl _ _)

end Halves

end TamerLite
