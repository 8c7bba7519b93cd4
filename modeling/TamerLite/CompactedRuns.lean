import TamerLite.Compaction

/-! Compaction and runs: the compacted search space follows every run of the full one,
and where the effects it drops have values it runs nothing else. -/

namespace TamerLite

open Difference SearchSpace

/-! ### Values without a slot -/

section Slots

variable {l : List Fluent} {A : Assignments} {f : Fluent}

theorem exists_getValue (h : f.idx < A.length) : ∃ v, getValue A f = some v :=
  ⟨A.get ⟨f.idx, h⟩, List.getElem?_eq_getElem h⟩

theorem filterMap_getValue_idxOf (hdef : ∀ g ∈ l, g.idx < A.length) (hf : f ∈ l) :
    (l.filterMap (getValue A))[l.idxOf f]? = getValue A f := by
  induction l with
  | nil => cases hf
  | cons g l ih =>
    obtain ⟨w, hg⟩ := exists_getValue (hdef g List.mem_cons_self)
    rw [List.filterMap_cons_some hg]
    by_cases he : f = g
    · subst he
      rw [List.idxOf_cons_self, hg]
      rfl
    · rw [List.idxOf_cons_ne l (Ne.symm he), List.getElem?_cons_succ]
      exact ih (fun g' hg' => hdef g' (List.mem_cons_of_mem g hg')) ((List.mem_cons.mp hf).resolve_left he)

theorem filterMap_getValue_frame (v : ConstantNode) (hf : f ∉ l) :
    l.filterMap (getValue (A.set f.idx v)) = l.filterMap (getValue A) := by
  apply List.filterMap_congr
  intro g hg
  rw [getValue_set, if_neg]
  intro he
  exact hf (he ▸ hg)

theorem filterMap_getValue_set (v : ConstantNode) (hn : l.Nodup) (hdef : ∀ g ∈ l, g.idx < A.length)
    (hf : f ∈ l) : l.filterMap (getValue (A.set f.idx v)) = (l.filterMap (getValue A)).set (l.idxOf f) v := by
  induction l with
  | nil => cases hf
  | cons g l ih =>
    obtain ⟨w, hg⟩ := exists_getValue (hdef g List.mem_cons_self)
    rw [List.filterMap_cons_some hg]
    by_cases he : f = g
    · subst he
      have hset : getValue (A.set f.idx v) f = some v := by
        rw [getValue_set, if_pos rfl, hg]
        rfl
      rw [List.filterMap_cons_some hset, List.idxOf_cons_self, List.set_cons_zero,
        filterMap_getValue_frame v (List.nodup_cons.mp hn).1]
    · have hset : getValue (A.set f.idx v) g = some w := by
        rw [getValue_set, if_neg (Ne.symm he), hg]
      rw [List.filterMap_cons_some hset, List.idxOf_cons_ne l (Ne.symm he), List.set_cons_succ,
        ih (List.nodup_cons.mp hn).2 (fun g' hg' => hdef g' (List.mem_cons_of_mem g hg'))
          ((List.mem_cons.mp hf).resolve_left he)]

end Slots

/-- What the encoder and the analysis promise of the fluents that get a slot. -/
structure Compactable (ss : SearchSpace) (considered : List Action) (R : Finset Fluent) : Prop where
  slots : ∀ f ∈ R, f.idx < ss.initialState.length
  timed : ∀ a, ss.timedAction = some a → a ∈ considered
  conditions : ∀ a ∈ considered, ∀ le, ss.events a = some le → ∀ te ∈ le,
    ∀ x ∈ te.2.conditions :: (te.2.startConditions ++ te.2.endConditions), ∀ f ∈ getFluents x, f ∈ R
  duration : ∀ a ∈ considered, ∀ d, ss.duration a = some d →
    ∀ x ∈ [d.lower, d.upper], ∀ f ∈ getFluents x, f ∈ R
  effects : ∀ a ∈ considered, ∀ le, ss.events a = some le → ∀ te ∈ le, ∀ eff ∈ te.2.effects,
    eff.fluent ∈ R → ∀ f ∈ getFluents eff.value, f ∈ R
  goal : ∀ f ∈ getFluents ss.goal, f ∈ R

namespace SearchSpace

/-- Every fluent that is read has a slot after the first pass. -/
structure Slotted (ss : SearchSpace) (actions : List Action) : Prop where
  read : ∀ f ∈ ss.readFluents actions, f.idx < ss.initialState.length
  written : ∀ f, ∀ g ∈ ss.writtenFrom actions f, g.idx < ss.initialState.length

/-- The timed action only opens conditions that it closes or that are final goals. -/
def TimedGoalsRead (ss : SearchSpace) : Prop :=
  ∀ a le, ss.timedAction = some a → ss.events a = some le → ∀ te ∈ le, ∀ x ∈ te.2.startConditions,
    ∀ f ∈ getFluents x, f ∈ getFluents ss.goal ∨ f ∈ ss.actionReadFluents a

variable {ss : SearchSpace} {considered : List Action} {R : Finset Fluent}

theorem compactable_of_matters (hslots : ss.Slotted considered) (hgoals : ss.TimedGoalsRead)
    (htimed : ∀ a, ss.timedAction = some a → a ∈ considered) (hR : ∀ f, f ∈ R ↔ ss.Matters considered f) :
    Compactable ss considered R := by
  have hgoal : ∀ f ∈ getFluents ss.goal, f ∈ R := fun f hf =>
    (hR f).mpr (.read (Finset.mem_union_left _ (List.mem_toFinset.mpr hf)))
  have hreads : ∀ a ∈ considered, ∀ f ∈ ss.actionReadFluents a, f ∈ R := fun a ha f hf =>
    (hR f).mpr (.read (Finset.mem_union_right _ (Finset.mem_biUnion.mpr ⟨a, List.mem_toFinset.mpr ha, hf⟩)))
  refine ⟨fun f hf => ?_, htimed, fun a ha le hle te hte x hx f hf => ?_,
    fun a ha d hd x hx f hf => hreads a ha f (mem_actionReadFluents_duration hd hx hf),
    fun a ha le hle te hte eff he heff f hf => ?_, hgoal⟩
  · cases (hR f).mp hf with
    | read hf => exact hslots.read f hf
    | written _ hg => exact hslots.written _ f hg
  · have hread : ∀ te' ∈ le, ∀ y ∈ te'.2.conditions :: te'.2.endConditions, f ∈ getFluents y → f ∈ R :=
      fun te' hte' y hy hf => hreads a ha f (mem_actionReadFluents hle hte' hy hf)
    rcases List.mem_cons.mp hx with rfl | hx
    · exact hread te hte _ List.mem_cons_self hf
    rcases List.mem_append.mp hx with hx | hx
    · by_cases ht : ss.timedAction = some a
      · exact (hgoals a le ht hle te hte x hx f hf).elim (hgoal f) (hreads a ha f)
      · obtain ⟨te', hte', hx'⟩ := mem_endConditions hle ht hte hx
        exact hread te' hte' x (List.mem_cons_of_mem _ hx') hf
    · exact hread te hte x (List.mem_cons_of_mem _ hx) hf
  · apply (hR f).mpr
    exact .written ((hR _).mp heff) (mem_writtenFrom.mpr ⟨a, ha, le, hle, te, hte, eff, he, rfl, hf⟩)

theorem mem_keptFluents {f : Fluent} :
    f ∈ ss.keptFluents R ↔ f.idx < ss.initialState.length ∧ f ∈ R := by
  rw [keptFluents, List.mem_filter, decide_eq_true_eq, List.mem_map]
  refine and_congr_left fun _ => ⟨?_, fun h => ⟨f.idx, List.mem_range.mpr h, rfl⟩⟩
  rintro ⟨i, hi, rfl⟩
  exact List.mem_range.mp hi

theorem nodup_keptFluents : (ss.keptFluents R).Nodup := by
  apply List.Nodup.filter
  apply List.Nodup.map _ List.nodup_range
  intro i j h
  exact Fluent.mk.inj h

end SearchSpace

variable {ss : SearchSpace} {considered : List Action} {R : Finset Fluent}

theorem Compactable.mem_kept (h : Compactable ss considered R) {f : Fluent} :
    f ∈ ss.keptFluents R ↔ f ∈ R :=
  mem_keptFluents.trans (and_iff_right_of_imp (h.slots f))

theorem Compactable.injOn (h : Compactable ss considered R) : Set.InjOn (ss.compactFluent R) {f | f ∈ R} := by
  intro f hf g hg he
  have hidx : (ss.keptFluents R).idxOf f = (ss.keptFluents R).idxOf g := Fluent.mk.inj he
  exact (List.idxOf_inj (h.mem_kept.mpr hf)).mp hidx

/-! ### Configurations -/

/-- The values that keep a slot. -/
def SearchSpace.compactAssignments (ss : SearchSpace) (R : Finset Fluent) (A : Assignments) : Assignments :=
  (ss.keptFluents R).filterMap (getValue A)

namespace Config

/-- A configuration as the second pass encodes it. -/
def compacted (ss : SearchSpace) (R : Finset Fluent) (c : Config) : Config :=
  { c with
    assignments := ss.compactAssignments R c.assignments
    active := c.active.map (renameFluents (ss.compactFluent R)) }

/-- What the runs of considered actions keep. -/
structure Kept (ss : SearchSpace) (considered : List Action) (R : Finset Fluent) (c : Config) : Prop where
  length : c.assignments.length = ss.initialState.length
  active : ∀ x ∈ c.active, ∀ f ∈ getFluents x, f ∈ R
  instances : ∀ i ∈ c.instances, i.action ∈ considered

end Config

open Config

theorem getValue_compactAssignments (h : Compactable ss considered R) {A : Assignments}
    (hA : A.length = ss.initialState.length) {f : Fluent} (hf : f ∈ R) :
    getValue (ss.compactAssignments R A) (ss.compactFluent R f) = getValue A f := by
  apply filterMap_getValue_idxOf _ (h.mem_kept.mpr hf)
  intro g hg
  rw [hA]
  exact (mem_keptFluents.mp hg).1

theorem renameFluents_iff (h : Compactable ss considered R) {x y : Expression}
    (hx : ∀ f ∈ getFluents x, f ∈ R) (hy : ∀ f ∈ getFluents y, f ∈ R) :
    renameFluents (ss.compactFluent R) x = renameFluents (ss.compactFluent R) y ↔ x = y :=
  ⟨renameFluents_inj h.injOn hx hy, fun he => he ▸ rfl⟩

theorem removeAll_compact (h : Compactable ss considered R) {xs : List Expression} {m : Multiset Expression}
    (hxs : ∀ x ∈ xs, ∀ f ∈ getFluents x, f ∈ R) (hm : ∀ x ∈ m, ∀ f ∈ getFluents x, f ∈ R) :
    removeAll (xs.map (renameFluents (ss.compactFluent R))) (m.map (renameFluents (ss.compactFluent R))) =
      (removeAll xs m).map (Multiset.map (renameFluents (ss.compactFluent R))) := by
  induction xs generalizing m with
  | nil => rfl
  | cons x xs ih =>
    have hmem : renameFluents (ss.compactFluent R) x ∈ m.map (renameFluents (ss.compactFluent R)) ↔
        x ∈ m := by
      rw [Multiset.mem_map]
      constructor
      · intro hy
        obtain ⟨y, hy, he⟩ := hy
        rwa [← (renameFluents_iff h (hm y hy) (hxs x List.mem_cons_self)).mp he]
      · intro hx
        exact ⟨x, hx, rfl⟩
    rw [List.map_cons, removeAll, removeAll]
    by_cases hx : x ∈ m
    · rw [if_pos hx, if_pos (hmem.mpr hx), ← Multiset.map_erase_of_mem _ _ hx]
      apply ih
      · exact fun y hy => hxs y (List.mem_cons_of_mem x hy)
      · exact fun y hy => hm y (Multiset.mem_of_mem_erase hy)
    · rw [if_neg hx, if_neg fun hmap => hx (hmem.mp hmap)]
      rfl

section Steps

variable {c d : Config} {a : Action} {A B : Assignments}

section

variable [Callables]

/-- The effects that the second pass drops have values. -/
def DroppedDefined (R : Finset Fluent) (effects : List Effect) (A : Assignments) : Prop :=
  ∀ eff ∈ effects, eff.fluent ∉ R → ∃ v, evaluate eff.value A = some v

theorem applyEffects_compact (h : Compactable ss considered R) {effs : List Effect}
    (hread : ∀ eff ∈ effs, eff.fluent ∈ R → ∀ f ∈ getFluents eff.value, f ∈ R)
    (hdef : DroppedDefined R effs A) (hA : A.length = ss.initialState.length)
    (hB : B.length = ss.initialState.length) :
    applyEffects ((effs.filter (·.fluent ∈ R)).map fun eff =>
        ⟨ss.compactFluent R eff.fluent, renameFluents (ss.compactFluent R) eff.value⟩)
      (ss.compactAssignments R A) (ss.compactAssignments R B) =
      (applyEffects effs A B).map (ss.compactAssignments R) := by
  induction effs generalizing B with
  | nil => rfl
  | cons eff effs ih =>
    have hrest : ∀ {B : Assignments}, B.length = ss.initialState.length →
        applyEffects ((effs.filter (·.fluent ∈ R)).map fun eff =>
          ⟨ss.compactFluent R eff.fluent, renameFluents (ss.compactFluent R) eff.value⟩)
          (ss.compactAssignments R A) (ss.compactAssignments R B) =
        (applyEffects effs A B).map (ss.compactAssignments R) := fun hB =>
      ih (fun e he => hread e (List.mem_cons_of_mem eff he))
        (fun e he => hdef e (List.mem_cons_of_mem eff he)) hB
    have hslot : ∀ g ∈ ss.keptFluents R, g.idx < B.length := by
      intro g hg
      rw [hB]
      exact (mem_keptFluents.mp hg).1
    by_cases hf : eff.fluent ∈ R
    · have hval : evaluate (renameFluents (ss.compactFluent R) eff.value) (ss.compactAssignments R A) =
          evaluate eff.value A := evaluate_renameFluents fun f hf' =>
        getValue_compactAssignments h hA (hread eff List.mem_cons_self hf f hf')
      rw [List.filter_cons_of_pos (by simpa using hf), List.map_cons, applyEffects, applyEffects,
        List.foldlM_cons, List.foldlM_cons, hval]
      cases evaluate eff.value A with
      | none => rfl
      | some v =>
        have hset : ss.compactAssignments R (B.set eff.fluent.idx v) =
            (ss.compactAssignments R B).set (ss.compactFluent R eff.fluent).idx v :=
          filterMap_getValue_set v nodup_keptFluents hslot (h.mem_kept.mpr hf)
        have hlen : (B.set eff.fluent.idx v).length = ss.initialState.length := by rw [List.length_set, hB]
        have hnext := hrest hlen
        rw [hset] at hnext
        exact hnext
    · obtain ⟨v, hv⟩ := hdef eff List.mem_cons_self hf
      have hframe : ss.compactAssignments R (B.set eff.fluent.idx v) = ss.compactAssignments R B :=
        filterMap_getValue_frame v fun hmem => hf (h.mem_kept.mp hmem)
      have hlen : (B.set eff.fluent.idx v).length = ss.initialState.length := by rw [List.length_set, hB]
      rw [List.filter_cons_of_neg (by simpa using hf), ← hframe, hrest hlen, applyEffects, applyEffects,
        List.foldlM_cons, hv]
      rfl

theorem droppedDefined_of_applyEffects {effs : List Effect} {values : Assignments}
    (happ : applyEffects effs A B = some values) : DroppedDefined R effs A := by
  induction effs generalizing B with
  | nil => exact fun eff he => absurd he List.not_mem_nil
  | cons eff effs ih =>
    obtain ⟨v, hv, happ⟩ := applyEffects_cons.mp happ
    intro e he hne
    rcases List.mem_cons.mp he with rfl | he
    · exact ⟨v, hv⟩
    · exact ih happ e he hne

theorem length_applyEffects {effs : List Effect} {values : Assignments}
    (happ : applyEffects effs A B = some values) : values.length = B.length := by
  induction effs generalizing B with
  | nil =>
    obtain rfl := Option.some.inj happ
    rfl
  | cons eff effs ih =>
    obtain ⟨v, -, happ⟩ := applyEffects_cons.mp happ
    rw [ih happ, List.length_set]

end

variable {le : List (Timing × Event)} {te : Timing × Event} {p : ℕ × ℕ}
  {todo : AList (fun _ : Action => ℕ × ℕ)} {instances : List Instance}

section

variable [Callables]

/-- An event fires after the second pass as it did after the first. -/
theorem fire_compact (h : Compactable ss considered R) (hc : c.Kept ss considered R) (ha : a ∈ considered)
    (hle : ss.events a = some le) (hte : te ∈ le) (hdef : DroppedDefined R te.2.effects c.assignments) :
    (c.compacted ss R).fire (te.2.compact (ss.compactFluent R) R) p todo instances =
      (c.fire te.2 p todo instances).map (compacted ss R) := by
  have hends : ∀ x ∈ te.2.endConditions, ∀ f ∈ getFluents x, f ∈ R := fun x hx =>
    h.conditions a ha le hle te hte x (List.mem_cons_of_mem _ (List.mem_append_right _ hx))
  have hstarts : ∀ x ∈ te.2.startConditions, ∀ f ∈ getFluents x, f ∈ R := fun x hx =>
    h.conditions a ha le hle te hte x (List.mem_cons_of_mem _ (List.mem_append_left _ hx))
  have hremove := removeAll_compact h hends hc.active
  have happly := applyEffects_compact h (h.effects a ha le hle te hte) hdef hc.length hc.length
  rw [fire, fire]
  simp only [compacted, Event.compact, hremove, happly]
  cases hrem : removeAll te.2.endConditions c.active with
  | none => rfl
  | some removed =>
    cases happ : applyEffects te.2.effects c.assignments c.assignments with
    | none => rfl
    | some values =>
      have hlen : values.length = ss.initialState.length := (length_applyEffects happ).trans hc.length
      have hadd : Multiset.map (renameFluents (ss.compactFluent R)) removed +
          Multiset.ofList (te.2.startConditions.map (renameFluents (ss.compactFluent R))) =
          (removed + te.2.startConditions).map (renameFluents (ss.compactFluent R)) := by
        rw [Multiset.map_add, Multiset.map_coe]
      have hreads : ∀ x ∈ removed + (te.2.startConditions : Multiset Expression),
          ∀ f ∈ getFluents x, f ∈ R := by
        intro x hx
        rcases Multiset.mem_add.mp hx with hx | hx
        · exact hc.active x (Multiset.mem_of_le (removeAll_le hrem) hx)
        · exact hstarts x hx
      have hholds : (∀ y ∈ (removed + te.2.startConditions).map (renameFluents (ss.compactFluent R)),
          holds y (ss.compactAssignments R values) = true) ↔
          ∀ x ∈ removed + (te.2.startConditions : Multiset Expression), holds x values = true := by
        rw [Multiset.forall_mem_map_iff]
        refine forall₂_congr fun x hx => ?_
        rw [holds_renameFluents fun f hf => getValue_compactAssignments h hlen (hreads x hx f hf)]
      simp only [Option.map_some, Option.bind_eq_bind, Option.bind_some, hadd, hholds]
      split_ifs
      · rfl
      · rfl

theorem kept_fire (h : Compactable ss considered R) (hc : c.Kept ss considered R) (ha : a ∈ considered)
    (hle : ss.events a = some le) (hte : te ∈ le) (hins : ∀ i ∈ instances, i.action ∈ considered)
    (hf : c.fire te.2 p todo instances = some d) : d.Kept ss considered R := by
  obtain ⟨removed, values, hrem, happ, -, rfl⟩ := fire_eq_some.mp hf
  refine ⟨(length_applyEffects happ).trans hc.length, fun x hx => ?_, hins⟩
  rcases Multiset.mem_add.mp hx with hx | hx
  · exact hc.active x (Multiset.mem_of_le (removeAll_le hrem) hx)
  · exact h.conditions a ha le hle te hte x (List.mem_cons_of_mem _ (List.mem_append_left _ hx))

theorem droppedDefined_of_fire (hf : c.fire te.2 p todo instances = some d) :
    DroppedDefined R te.2.effects c.assignments := by
  obtain ⟨removed, values, -, happ, -, -⟩ := fire_eq_some.mp hf
  exact droppedDefined_of_applyEffects happ

theorem durationBounds_compact (h : Compactable ss considered R) (hc : c.Kept ss considered R)
    (ha : a ∈ considered) :
    (ss.compact considered R).durationBounds a (c.compacted ss R).assignments =
      ss.durationBounds a c.assignments := by
  cases hd : ss.duration a with
  | none => simp only [durationBounds, duration_compact ha, hd, Option.map_none]
  | some dur =>
    have hbound : ∀ x ∈ [dur.lower, dur.upper],
        evaluate (renameFluents (ss.compactFluent R) x) (c.compacted ss R).assignments =
          evaluate x c.assignments := by
      intro x hx
      apply evaluate_renameFluents
      intro f hf
      exact getValue_compactAssignments h hc.length (h.duration a ha dur hd x hx f hf)
    have hlower := hbound dur.lower List.mem_cons_self
    have hupper := hbound dur.upper (List.mem_cons_of_mem _ List.mem_cons_self)
    simp only [durationBounds, duration_compact ha, hd, Option.map_some, Duration.compact, evaluateBound,
      hlower, hupper]
    rfl

theorem conditions_compact (h : Compactable ss considered R) (hc : c.Kept ss considered R)
    (ha : a ∈ considered) (hle : ss.events a = some le) (hte : te ∈ le) :
    holds (te.2.compact (ss.compactFluent R) R).conditions (c.compacted ss R).assignments =
      holds te.2.conditions c.assignments := by
  apply holds_renameFluents
  intro f hf
  exact getValue_compactAssignments h hc.length (h.conditions a ha le hle te hte _ List.mem_cons_self f hf)

/-- The event of an action that would fire next. -/
def Config.upcoming (ss : SearchSpace) (c : Config) (a : Action) : Option (Timing × Event) :=
  ss.event a ((c.todo.lookup a).elim 0 Prod.fst)

theorem step_compact (h : Compactable ss considered R) (hc : c.Kept ss considered R) (ha : a ∈ considered)
    (hdef : ∀ te, c.upcoming ss a = some te → DroppedDefined R te.2.effects c.assignments) :
    (c.compacted ss R).step (ss.compact considered R) a = (c.step ss a).map (compacted ss R) := by
  rw [Config.step, Config.step, events_compact ha]
  cases hle : ss.events a with
  | none => rfl
  | some le =>
    have hlen : (compactEvents (ss.compactFluent R) R le).length = le.length := List.length_map _
    have hget : ∀ k : ℕ, (compactEvents (ss.compactFluent R) R le)[k]? =
        le[k]?.map fun te => (te.1, te.2.compact (ss.compactFluent R) R) := fun k => List.getElem?_map ..
    have hlookup : (c.compacted ss R).todo.lookup a = c.todo.lookup a := rfl
    have hnext : ∀ te, c.upcoming ss a = some te ↔ le[(c.todo.lookup a).elim 0 Prod.fst]? = some te := by
      intro te
      rw [upcoming, event_eq hle]
    simp only [Option.map_some, Option.bind_eq_bind, Option.bind_some, hlookup, hlen, hget]
    cases hl : c.todo.lookup a with
    | some kj =>
      obtain ⟨k, j⟩ := kj
      dsimp only
      cases hte : le[k]? with
      | none => simp only [Option.map_none, Option.bind_none]
      | some te =>
        have hmem := List.mem_of_getElem? hte
        have hfire : DroppedDefined R te.2.effects c.assignments := by
          apply hdef te
          rw [hnext, hl]
          exact hte
        simp only [Option.map_some, Option.bind_some]
        rw [conditions_compact h hc ha hle hmem]
        by_cases hcond : holds te.2.conditions c.assignments = true
        · rw [if_pos hcond, if_pos hcond]
          exact fire_compact h hc ha hle hmem hfire
        · rw [if_neg hcond, if_neg hcond]
          rfl
    | none =>
      dsimp only
      by_cases ht : ss.timedAction = some a
      · rw [if_pos ht, if_pos (show (ss.compact considered R).timedAction = some a from ht)]
        rfl
      rw [if_neg ht, if_neg (show ¬ (ss.compact considered R).timedAction = some a from ht)]
      have hsym : (ss.compact considered R).symmetryAllowsOpening (c.compacted ss R).actions a =
          ss.symmetryAllowsOpening c.actions a := rfl
      rw [hsym]
      by_cases hopen : (!ss.symmetryAllowsOpening c.actions a) = true
      · rw [if_pos hopen, if_pos hopen]
        rfl
      rw [if_neg hopen, if_neg hopen]
      cases hte : le[0]? with
      | none => simp only [Option.map_none, Option.bind_none]
      | some te =>
        have hmem := List.mem_of_getElem? hte
        have hfire : DroppedDefined R te.2.effects c.assignments := by
          apply hdef te
          rw [hnext, hl]
          exact hte
        simp only [Option.map_some, Option.bind_some]
        rw [conditions_compact h hc ha hle hmem]
        by_cases hcond : holds te.2.conditions c.assignments = true
        · rw [if_pos hcond, if_pos hcond, durationBounds_compact h hc ha]
          cases ss.durationBounds a c.assignments with
          | none => rfl
          | some b => exact fire_compact h hc ha hle hmem hfire
        · rw [if_neg hcond, if_neg hcond]
          rfl

end

/-! ### Runs -/

theorem compresses_compact (ha : a ∈ considered) {b : Bool} :
    (c.compacted ss R).compresses (ss.compact considered R) b a = c.compresses ss b a := by
  rw [compresses, compresses, events_compact ha]
  cases ss.events a with
  | none => rfl
  | some le =>
    simp only [Option.map_some, Option.getD_some, compactEvents, List.length_map]
    rfl

variable [Callables]

theorem upcoming_defined (hs : c.step ss a = some d) (te : Timing × Event) (hte : c.upcoming ss a = some te) :
    DroppedDefined R te.2.effects c.assignments := by
  rcases step_eq_some.mp hs with ⟨le, k, j, te', hle, hl, hte', -, hf⟩ |
    ⟨le, te', b, hle, hl, -, -, hte', -, -, hf⟩
  · rw [upcoming, event_eq hle, hl] at hte
    obtain rfl := Option.some.inj (hte'.symm.trans hte)
    exact droppedDefined_of_fire hf
  · rw [upcoming, event_eq hle, hl] at hte
    obtain rfl := Option.some.inj (hte'.symm.trans hte)
    exact droppedDefined_of_fire hf

theorem kept_step (h : Compactable ss considered R) (hc : c.Kept ss considered R) (ha : a ∈ considered)
    (hs : c.step ss a = some d) : d.Kept ss considered R := by
  rcases step_eq_some.mp hs with ⟨le, k, j, te, hle, hl, hte, -, hf⟩ |
    ⟨le, te, b, hle, hl, -, -, hte, -, -, hf⟩
  · exact kept_fire h hc ha hle (List.mem_of_getElem? hte) hc.instances hf
  · apply kept_fire h hc ha hle (List.mem_of_getElem? hte) _ hf
    intro i hi
    rcases List.mem_append.mp hi with hi | hi
    · exact hc.instances i hi
    · obtain rfl := List.mem_singleton.mp hi
      exact ha

theorem step_forward (h : Compactable ss considered R) (hc : c.Kept ss considered R) (ha : a ∈ considered)
    (hs : c.step ss a = some d) :
    (c.compacted ss R).step (ss.compact considered R) a = some (d.compacted ss R) := by
  rw [step_compact h hc ha (upcoming_defined hs), hs]
  rfl

theorem fireRest_forward (h : Compactable ss considered R) (ha : a ∈ considered) (hle : ss.events a = some le)
    {rest : List (Timing × Event)} {j k : ℕ} (hrest : ∀ te ∈ rest, te ∈ le) (hc : c.Kept ss considered R)
    (hf : c.fireRest j rest k = some d) :
    (c.compacted ss R).fireRest j (compactEvents (ss.compactFluent R) R rest) k = some (d.compacted ss R) ∧
      d.Kept ss considered R := by
  induction rest generalizing c k with
  | nil =>
    obtain rfl := Option.some.inj hf
    exact ⟨rfl, hc⟩
  | cons te rest ih =>
    obtain ⟨e, he, hf⟩ := fireRest_cons.mp hf
    have hte := hrest te List.mem_cons_self
    have hkept := kept_fire h hc ha hle hte hc.instances he
    obtain ⟨hnext, hlast⟩ := ih (fun t ht => hrest t (List.mem_cons_of_mem te ht)) hkept hf
    have hfire := @fire_compact _ _ _ c a le te (j, k) c.todo c.instances _ h hc ha hle hte
      (droppedDefined_of_fire he)
    rw [he] at hfire
    exact ⟨fireRest_cons.mpr ⟨_, hfire, hnext⟩, hlast⟩

theorem stepWith_forward (h : Compactable ss considered R) (hc : c.Kept ss considered R) (ha : a ∈ considered)
    {b : Bool} (hs : c.stepWith ss b a = some d) :
    (c.compacted ss R).stepWith (ss.compact considered R) b a = some (d.compacted ss R) ∧
      d.Kept ss considered R := by
  rcases stepWith_eq_some.mp hs with ⟨hno, hs⟩ | ⟨e, le, hyes, hle, hs, hf⟩
  · exact ⟨stepWith_eq_some.mpr (.inl ⟨(compresses_compact ha).trans hno, step_forward h hc ha hs⟩),
      kept_step h hc ha hs⟩
  · have hkept := kept_step h hc ha hs
    have hkept' : Kept ss considered R { e with todo := e.todo.erase a } :=
      ⟨hkept.length, hkept.active, hkept.instances⟩
    obtain ⟨hrest, hlast⟩ := fireRest_forward h ha hle (fun te hte => List.mem_of_mem_tail hte) hkept' hf
    refine ⟨stepWith_eq_some.mpr (.inr ⟨e.compacted ss R, _, (compresses_compact ha).trans hyes,
      by rw [events_compact ha, hle]; rfl, step_forward h hc ha hs, ?_⟩), hlast⟩
    rw [compactEvents, ← List.map_tail]
    exact hrest

theorem runWith_forward (h : Compactable ss considered R) {b : Bool} {as : List Action}
    (has : ∀ a ∈ as, a ∈ considered) (hc : c.Kept ss considered R) (hr : c.runWith ss b as = some d) :
    (c.compacted ss R).runWith (ss.compact considered R) b as = some (d.compacted ss R) ∧
      d.Kept ss considered R := by
  induction as generalizing c with
  | nil =>
    obtain rfl := Option.some.inj hr
    exact ⟨rfl, hc⟩
  | cons a as ih =>
    obtain ⟨e, he, hr⟩ := runWith_cons.mp hr
    obtain ⟨hstep, hkept⟩ := stepWith_forward h hc (has a List.mem_cons_self) he
    obtain ⟨hrun, hlast⟩ := ih (fun b hb => has b (List.mem_cons_of_mem a hb)) hkept hr
    exact ⟨runWith_cons.mpr ⟨_, hstep, hrun⟩, hlast⟩

/-- A property of the values that the search keeps, under which no effect that is dropped raises. -/
structure DropsSafely (ss : SearchSpace) (considered : List Action) (R : Finset Fluent)
    (P : Assignments → Prop) : Prop where
  start : P ss.initialState
  keeps : ∀ a ∈ considered, ∀ le, ss.events a = some le → ∀ te ∈ le, ∀ A B, P A →
    applyEffects te.2.effects A A = some B → P B
  defined : ∀ a ∈ considered, ∀ le, ss.events a = some le → ∀ te ∈ le, ∀ A, P A →
    DroppedDefined R te.2.effects A

variable {P : Assignments → Prop} {d' : Config}

theorem DropsSafely.fire (hP : DropsSafely ss considered R P) (ha : a ∈ considered)
    (hle : ss.events a = some le) (hte : te ∈ le) (hc : P c.assignments)
    (hf : c.fire te.2 p todo instances = some d) : P d.assignments := by
  obtain ⟨removed, values, -, happ, -, rfl⟩ := fire_eq_some.mp hf
  exact hP.keeps a ha le hle te hte _ _ hc happ

theorem DropsSafely.step (hP : DropsSafely ss considered R P) (ha : a ∈ considered) (hc : P c.assignments)
    (hs : c.step ss a = some d) : P d.assignments := by
  rcases step_eq_some.mp hs with ⟨le, k, j, te, hle, -, hte, -, hf⟩ |
    ⟨le, te, b, hle, -, -, -, hte, -, -, hf⟩
  · exact hP.fire ha hle (List.mem_of_getElem? hte) hc hf
  · exact hP.fire ha hle (List.mem_of_getElem? hte) hc hf

theorem step_backward (h : Compactable ss considered R) (hP : DropsSafely ss considered R P)
    (hc : c.Kept ss considered R) (hv : P c.assignments) (ha : a ∈ considered)
    (hs : (c.compacted ss R).step (ss.compact considered R) a = some d') :
    ∃ d, c.step ss a = some d ∧ d' = d.compacted ss R := by
  have hdef : ∀ te, c.upcoming ss a = some te → DroppedDefined R te.2.effects c.assignments := by
    intro te hte
    obtain ⟨le, hle, hte⟩ := Option.bind_eq_some_iff.mp hte
    exact hP.defined a ha le hle te (List.mem_of_getElem? hte) _ hv
  rw [step_compact h hc ha hdef] at hs
  obtain ⟨d, hd, hd'⟩ := Option.map_eq_some_iff.mp hs
  exact ⟨d, hd, hd'.symm⟩

theorem fireRest_backward (h : Compactable ss considered R) (hP : DropsSafely ss considered R P)
    (ha : a ∈ considered) (hle : ss.events a = some le) {rest : List (Timing × Event)} {j k : ℕ}
    (hrest : ∀ te ∈ rest, te ∈ le) (hc : c.Kept ss considered R) (hv : P c.assignments)
    (hf : (c.compacted ss R).fireRest j (compactEvents (ss.compactFluent R) R rest) k = some d') :
    ∃ d, c.fireRest j rest k = some d ∧ d' = d.compacted ss R ∧ P d.assignments := by
  induction rest generalizing c k with
  | nil =>
    obtain rfl := Option.some.inj hf
    exact ⟨c, rfl, rfl, hv⟩
  | cons te rest ih =>
    obtain ⟨e', he', hf⟩ := fireRest_cons.mp hf
    have hte := hrest te List.mem_cons_self
    have hfire := @fire_compact _ _ _ c a le te (j, k) c.todo c.instances _ h hc ha hle hte
      (hP.defined a ha le hle te hte _ hv)
    obtain ⟨e, he, rfl⟩ := Option.map_eq_some_iff.mp (hfire.symm.trans he')
    obtain ⟨d, hd, heq, hlast⟩ := ih (fun t ht => hrest t (List.mem_cons_of_mem te ht))
      (kept_fire h hc ha hle hte hc.instances he) (hP.fire ha hle hte hv he) hf
    exact ⟨d, fireRest_cons.mpr ⟨e, he, hd⟩, heq, hlast⟩

theorem stepWith_backward (h : Compactable ss considered R) (hP : DropsSafely ss considered R P)
    (hc : c.Kept ss considered R) (hv : P c.assignments) (ha : a ∈ considered) {b : Bool}
    (hs : (c.compacted ss R).stepWith (ss.compact considered R) b a = some d') :
    ∃ d, c.stepWith ss b a = some d ∧ d' = d.compacted ss R ∧ P d.assignments := by
  rcases stepWith_eq_some.mp hs with ⟨hno, hs⟩ | ⟨e', le', hyes, hle', hs, hf⟩
  · obtain ⟨d, hd, heq⟩ := step_backward h hP hc hv ha hs
    exact ⟨d, stepWith_eq_some.mpr (.inl ⟨(compresses_compact ha).symm.trans hno, hd⟩), heq,
      hP.step ha hv hd⟩
  · obtain ⟨e, he, rfl⟩ := step_backward h hP hc hv ha hs
    rw [events_compact ha] at hle'
    obtain ⟨le, hle, rfl⟩ := Option.map_eq_some_iff.mp hle'
    have hkept := kept_step h hc ha he
    have hkept' : Kept ss considered R { e with todo := e.todo.erase a } :=
      ⟨hkept.length, hkept.active, hkept.instances⟩
    have hv' : P e.assignments := hP.step ha hv he
    rw [compactEvents, ← List.map_tail] at hf
    obtain ⟨d, hd, heq, hlast⟩ := fireRest_backward h hP ha hle (fun te hte => List.mem_of_mem_tail hte)
      hkept' hv' hf
    exact ⟨d, stepWith_eq_some.mpr (.inr ⟨e, le, (compresses_compact ha).symm.trans hyes, hle, he, hd⟩),
      heq, hlast⟩

theorem runWith_backward (h : Compactable ss considered R) (hP : DropsSafely ss considered R P)
    {b : Bool} {as : List Action} (has : ∀ a ∈ as, a ∈ considered) (hc : c.Kept ss considered R)
    (hv : P c.assignments) (hr : (c.compacted ss R).runWith (ss.compact considered R) b as = some d') :
    ∃ d, c.runWith ss b as = some d ∧ d' = d.compacted ss R := by
  induction as generalizing c with
  | nil =>
    obtain rfl := Option.some.inj hr
    exact ⟨c, rfl, rfl⟩
  | cons a as ih =>
    obtain ⟨e', he', hr⟩ := runWith_cons.mp hr
    have ha := has a List.mem_cons_self
    obtain ⟨e, he, rfl, hv'⟩ := stepWith_backward h hP hc hv ha he'
    obtain ⟨d, hd, heq⟩ := ih (fun b hb => has b (List.mem_cons_of_mem a hb))
      (stepWith_forward h hc ha he).2 hv' hr
    exact ⟨d, runWith_cons.mpr ⟨e, he, hd⟩, heq⟩

end Steps

end TamerLite
