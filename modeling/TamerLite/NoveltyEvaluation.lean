import TamerLite.NoveltyFeatures

/-! Evaluating only the leaves that may have changed gives every child the class
and the tables the evaluation from scratch gives it, over any run of expansions. -/

namespace TamerLite

open Records Features

section Passes

variable {P S : Features} {vs : List ℕ} {c c' : Classification}

theorem distance_eq (h : Visited P S vs c) (h' : Visited P S vs c') {id : ℕ} (hid : id ∈ vs)
    (hu : Unsat S id) : c.distance id = c'.distance id := by
  obtain ⟨d, hd⟩ := hu
  rw [Classification.distance, Classification.distance, h.sdist id hid d _ hd,
    h'.sdist id hid d _ hd]

theorem Visited.unsat_of_improved {id : ℕ} (h : Visited P S vs c) (hid : id ∈ c.numericImproved) :
    id ∈ vs ∧ Unsat S id := by
  obtain ⟨hv, d, e, -, hd, -⟩ := (h.improved id).mp hid
  exact ⟨hv, d, hd⟩

theorem mem_satisfiedPairs {p : ℕ × ℕ} : p ∈ c.satisfiedPairs false ↔
    ∃ f ∈ c.newlySatisfied, ∃ tid ∈ c.currentlySatisfied, tid ≠ f ∧
      p = Classification.unorderedPair f tid := by
  simp only [Classification.satisfiedPairs, Bool.false_eq_true, if_false, List.drop_zero,
    List.mem_flatMap, List.mem_map, List.mem_filter, decide_eq_true_eq]
  constructor
  · intro h
    obtain ⟨q, hq, tid, ⟨htid, hne⟩, rfl⟩ := h
    exact ⟨q.1, List.fst_mem_of_mem_zipIdx hq, tid, htid, hne, rfl⟩
  · intro h
    obtain ⟨f, hf, tid, htid, hne, rfl⟩ := h
    obtain ⟨i, hi, rfl⟩ := List.getElem_of_mem hf
    exact ⟨(_, i), List.mem_zipIdx_iff_getElem?.mpr (List.getElem?_eq_getElem hi), tid,
      ⟨htid, hne⟩, rfl⟩

/-- The passes see nothing but which leaves are in the lists. -/
theorem passes_congr (h : Visited P S vs c) (h' : Visited P S vs c') (tables : PartitionTables) :
    c.passes tables false = c'.passes tables false := by
  have hnewly : ∀ id, id ∈ c.newlySatisfied ↔ id ∈ c'.newlySatisfied :=
    fun id => (h.newly id).trans (h'.newly id).symm
  have himp : ∀ id, id ∈ c.numericImproved ↔ id ∈ c'.numericImproved :=
    fun id => (h.improved id).trans (h'.improved id).symm
  have hcurr : ∀ id, id ∈ c.currentlySatisfied ↔ id ∈ c'.currentlySatisfied :=
    fun id => (h.current id).trans (h'.current id).symm
  have hpers : ∀ id, id ∈ c.persistingSatisfied ↔ id ∈ c'.persistingSatisfied :=
    fun id => (h.persisting id).trans (h'.persisting id).symm
  have hunsat : ∀ id, id ∈ c.numericUnsatisfied ↔ id ∈ c'.numericUnsatisfied :=
    fun id => (h.unsatisfied id).trans (h'.unsatisfied id).symm
  have hdist : ∀ id ∈ c.numericImproved, c.distance id = c'.distance id := fun id hid =>
    distance_eq h h' (h.unsat_of_improved hid).1 (h.unsat_of_improved hid).2
  have hdist' : ∀ id ∈ c.numericUnsatisfied, c.distance id = c'.distance id := fun id hid =>
    distance_eq h h' ((h.unsatisfied id).mp hid).1 ((h.unsatisfied id).mp hid).2
  have hentries : ∀ e, e ∈ c.numericImproved.map (fun id => (id, c.distance id)) ↔
      e ∈ c'.numericImproved.map (fun id => (id, c'.distance id)) := by
    intro e
    simp only [List.mem_map, ← himp]
    refine exists_congr fun id => and_congr_right fun hid => ?_
    rw [hdist id hid]
  have hpairs : ∀ p, p ∈ c.satisfiedPairs false ↔ p ∈ c'.satisfiedPairs false := by
    intro p
    simp only [mem_satisfiedPairs, hnewly, hcurr]
  have hnew : ∀ e, e ∈ c.newWithUnsatisfied ↔ e ∈ c'.newWithUnsatisfied := by
    intro e
    simp only [Classification.newWithUnsatisfied, List.mem_flatMap, List.mem_map, List.mem_filter,
      ← hnewly, ← hunsat]
    refine exists_congr fun f => and_congr_right fun _ => exists_congr fun tid =>
      and_congr_right fun htid => ?_
    rw [hdist' tid htid.1]
  have hold : ∀ e, e ∈ c.persistingWithImproved ↔ e ∈ c'.persistingWithImproved := by
    intro e
    simp only [Classification.persistingWithImproved, List.mem_flatMap, List.mem_map,
      List.mem_filter, ← himp, ← hpers]
    refine exists_congr fun tid => and_congr_right fun htid => exists_congr fun f =>
      and_congr_right fun _ => ?_
    rw [hdist tid htid]
  simp only [Classification.passes]
  rw [note_congr hnewly, improve_congr hentries, note_congr hpairs, improve_congr hnew,
    improve_congr hold]

/-- Without progress the passes have nothing to do. -/
theorem passes_idle (hn : c.newlySatisfied = []) (hi : c.numericImproved = [])
    (tables : PartitionTables) : c.passes tables false = (3, tables) := by
  simp [Classification.passes, Classification.satisfiedPairs, Classification.newWithUnsatisfied,
    Classification.persistingWithImproved, hn, hi]

end Passes

section Sparse

variable {nn : NumericNovelty} {parent state : Assignments} {isNot : ℕ → Bool}
  {c : Classification} {features : ParentFeatures}

theorem mem_markDirtyLeaves {id : ℕ} : id ∈ nn.markDirtyLeaves parent isNot ↔
    ∃ f < parent.length, isNot f = true ∧ id ∈ nn.index.fluentToLeaves f := by
  simp only [NumericNovelty.markDirtyLeaves, List.mem_eraseDups, List.mem_flatMap, List.mem_filter,
    List.mem_range, and_assoc]

theorem dirty_lt {id : ℕ} (h : id ∈ nn.markDirtyLeaves parent isNot) :
    id < nn.index.leaves.length := by
  obtain ⟨f, -, -, hid⟩ := mem_markDirtyLeaves.mp h
  exact nn.index.known hid

theorem sat_or_newly {P S : Features} {id : ℕ} (hp : (P id).isSome) (hs : Sat S id) :
    Sat P id ∨ Newly P S id := by
  obtain ⟨⟨d, b⟩, hp⟩ := Option.isSome_iff_exists.mp hp
  cases b with
  | true => exact .inl ⟨d, hp⟩
  | false => exact .inr ⟨hs, d, hp⟩

variable [Callables]

/-- A leaf that is not marked has its parent's feature. -/
theorem featuresOf_clean (hlen : parent.length = state.length)
    (hsound : ∀ f, isNot f = false → parent[f]? = state[f]?) {id : ℕ}
    (hclean : id ∉ nn.markDirtyLeaves parent isNot) :
    featuresOf nn.index.leaves state id = featuresOf nn.index.leaves parent id := by
  cases hl : nn.index.leaves[id]? with
  | none => simp [featuresOf, hl]
  | some leaf =>
    rw [featuresOf_eq hl, featuresOf_eq hl]
    refine feature_congr fun f hf => ?_
    have hread := nn.index.covers hl f hf
    by_cases hlt : f.idx < parent.length
    · have hsame : isNot f.idx = false := by
        by_contra hn
        exact hclean (mem_markDirtyLeaves.mpr ⟨f.idx, hlt, by simpa using hn, hread⟩)
      exact (hsound f.idx hsame).symm
    · rw [getValue, getValue, List.getElem?_eq_none (by omega), List.getElem?_eq_none (by omega)]

/-- With the snapshot's clean leaves every leaf is classified. -/
theorem Visited.merge {dirty : List ℕ} {sn : List ℕ × List ℕ} {leaves : List Leaf}
    (h : Visited (featuresOf leaves parent) (featuresOf leaves state) dirty c)
    (hdirty : ∀ id ∈ dirty, id < leaves.length)
    (hclean : ∀ id, id ∉ dirty → featuresOf leaves state id = featuresOf leaves parent id)
    (hc : Cached leaves parent features) (hsn : Snapshot leaves parent features sn) :
    Visited (featuresOf leaves parent) (featuresOf leaves state) (List.range leaves.length)
      (NumericNovelty.merge dirty c sn features) := by
  have hlt : ∀ {id : ℕ} {d : Option ℚ} {b : Bool}, featuresOf leaves parent id = some (d, b) →
      id < leaves.length := fun hd => featuresOf_isSome (by simp [hd] : (featuresOf leaves parent _).isSome)
  refine ⟨fun id hid => ?_, fun id => ?_, fun id => ?_, fun id => ?_, fun id => ?_, fun id => ?_,
    fun id hid d b hd => ?_, fun id hid => ?_⟩
  · by_cases hd : id ∈ dirty
    · exact h.defined id hd
    · have hp := hsn.defined id (List.mem_range.mp hid)
      exact ⟨hp, by rw [hclean id hd]; exact hp⟩
  · rw [List.mem_range]
    by_cases hd : id ∈ dirty
    · exact (h.newly id).trans (and_congr_left fun _ => iff_of_true hd (hdirty id hd))
    · have hno : ¬ Newly (featuresOf leaves parent) (featuresOf leaves state) id := by
        intro hn
        obtain ⟨⟨d, hd'⟩, e, he⟩ := hn
        rw [hclean id hd, he] at hd'
        simp at hd'
      exact iff_of_false (fun hm => hno ((h.newly id).mp hm).2) fun hm => hno hm.2
  · simp only [NumericNovelty.merge, List.mem_append, List.mem_filter, decide_eq_true_eq,
      List.mem_range, h.current, hsn.sat]
    by_cases hd : id ∈ dirty
    · simp [hd, hdirty id hd]
    · simp only [hd, false_and, not_false_eq_true, and_true, false_or, Sat, hclean id hd]
      exact (and_iff_right_of_imp fun hs => hlt hs.choose_spec).symm
  · simp only [NumericNovelty.merge, List.mem_append, List.mem_filter, decide_eq_true_eq,
      List.mem_range, h.persisting, hsn.sat]
    by_cases hd : id ∈ dirty
    · simp [hd, hdirty id hd]
    · simp only [hd, false_and, not_false_eq_true, and_true, false_or, Sat, hclean id hd, and_self]
      exact (and_iff_right_of_imp fun hs => hlt hs.choose_spec).symm
  · rw [List.mem_range]
    by_cases hd : id ∈ dirty
    · exact (h.improved id).trans (and_congr_left fun _ => iff_of_true hd (hdirty id hd))
    · have hno : ¬ Improved (featuresOf leaves parent) (featuresOf leaves state) id := by
        intro hi
        obtain ⟨d, e, he, hd', hlt'⟩ := hi
        rw [hclean id hd, he] at hd'
        simp only [Option.some.injEq, Prod.mk.injEq, and_true] at hd'
        exact absurd hlt' (by rw [hd']; exact lt_irrefl d)
      exact iff_of_false (fun hm => hno ((h.improved id).mp hm).2) fun hm => hno hm.2
  · simp only [NumericNovelty.merge, List.mem_append, List.mem_filter, decide_eq_true_eq,
      List.mem_range, h.unsatisfied, hsn.unsat]
    by_cases hd : id ∈ dirty
    · simp [hd, hdirty id hd]
    · simp only [hd, false_and, not_false_eq_true, and_true, false_or, Unsat, hclean id hd]
      exact (and_iff_right_of_imp fun hs => hlt hs.choose_spec).symm
  · by_cases hdirty' : id ∈ dirty
    · simp [NumericNovelty.merge, h.sdist id hdirty' d b hd]
    · rw [hclean id hdirty'] at hd
      simp [NumericNovelty.merge, h.fresh id hdirty', hsn.numeric id d b hd]
  · have hnd : id ∉ dirty := fun hd => hid (List.mem_range.mpr (hdirty id hd))
    have hnum : features.numeric id = none := by
      cases hn : features.numeric id with
      | none => rfl
      | some r => exact absurd (List.mem_range.mpr (hlt (hc.num id r hn))) hid
    simp [NumericNovelty.merge, h.fresh id hnd, hnum]

/-- What the sparse evaluation does: it stops early when no leaf makes progress,
and else runs the passes on a classification of every leaf. -/
theorem evalSame_cases {partition k : ℕ} {nn' : NumericNovelty}
    (hc : Cached nn.index.leaves parent nn.features)
    (hlen : parent.length = state.length)
    (hsound : ∀ f, isNot f = false → parent[f]? = state[f]?)
    (hs : nn.evalSame state partition parent isNot = some (k, nn')) :
    nn'.index = nn.index ∧ nn'.maxPartition = nn.maxPartition ∧
      Cached nn.index.leaves parent nn'.features ∧
      ((k = 3 ∧ nn'.partitions = nn.partitions ∧
          (∀ id, ¬ Newly (featuresOf nn.index.leaves parent) (featuresOf nn.index.leaves state) id ∧
            ¬ Improved (featuresOf nn.index.leaves parent) (featuresOf nn.index.leaves state) id) ∧
          ∀ id, Sat (featuresOf nn.index.leaves state) id → Sat (featuresOf nn.index.leaves parent) id) ∨
        ∃ c, Visited (featuresOf nn.index.leaves parent) (featuresOf nn.index.leaves state)
            (List.range nn.index.leaves.length) c ∧
          (k, nn'.partitions) = ((c.passes (nn.partitions partition) false).1, Function.update
            nn.partitions partition (c.passes (nn.partitions partition) false).2)) := by
  have hdirty : ∀ id ∈ nn.markDirtyLeaves parent isNot, id < nn.index.leaves.length :=
    fun id hid => dirty_lt hid
  obtain ⟨ls, g, hmap, hls, hg, heq⟩ := foldlM_addDirty state hc hdirty .empty
  simp only [NumericNovelty.evalSame, if_pos hlen, heq, Option.bind_eq_bind,
    Option.bind_eq_some_iff, Option.map_eq_some_iff] at hs
  obtain ⟨-, ⟨c, hcs, rfl⟩, hs⟩ := hs
  have hvisited := visited_foldlM visited_empty hls hcs
  rw [hmap, List.append_nil] at hvisited
  have hclean : ∀ id, id ∉ nn.markDirtyLeaves parent isNot →
      featuresOf nn.index.leaves state id = featuresOf nn.index.leaves parent id :=
    fun id hid => featuresOf_clean hlen hsound hid
  simp only at hs
  split_ifs at hs with hidle
  · obtain ⟨rfl, rfl⟩ := Prod.mk.inj (Option.some.inj hs)
    have hnone : ∀ id, ¬ Newly (featuresOf nn.index.leaves parent)
        (featuresOf nn.index.leaves state) id := by
      intro id hn
      by_cases hd : id ∈ nn.markDirtyLeaves parent isNot
      · have hm := (hvisited.newly id).mpr ⟨hd, hn⟩
        rw [hidle.1] at hm
        exact absurd hm List.not_mem_nil
      · obtain ⟨⟨d, hd'⟩, e, he⟩ := hn
        rw [hclean id hd, he] at hd'
        simp at hd'
    refine ⟨rfl, rfl, hg, .inl ⟨rfl, rfl, fun id => ⟨hnone id, fun hi => ?_⟩, fun id hsat => ?_⟩⟩
    · by_cases hd : id ∈ nn.markDirtyLeaves parent isNot
      · have hm := (hvisited.improved id).mpr ⟨hd, hi⟩
        rw [hidle.2] at hm
        exact absurd hm List.not_mem_nil
      · obtain ⟨d, e, he, hd', hlt⟩ := hi
        rw [hclean id hd, he] at hd'
        simp only [Option.some.injEq, Prod.mk.injEq, and_true] at hd'
        exact absurd hlt (by rw [hd']; exact lt_irrefl d)
    · by_cases hd : id ∈ nn.markDirtyLeaves parent isNot
      · exact (sat_or_newly (hvisited.defined id hd).1 hsat).resolve_right (hnone id)
      · rwa [Sat, hclean id hd] at hsat
  · obtain ⟨⟨sn, features⟩, hsnap, hs⟩ := Option.bind_eq_some_iff.mp hs
    obtain ⟨hcached, hsn⟩ := ensureParentSnapshot_spec hg hsnap
    obtain ⟨rfl, rfl⟩ := Prod.mk.inj (Option.some.inj hs)
    exact ⟨rfl, rfl, hcached, .inr ⟨_, hvisited.merge hdirty hclean hcached hsn,
      rfl⟩⟩

/-- Where every leaf has a feature the sparse evaluation does not fail. -/
theorem exists_evalSame {partition : ℕ} (hc : Cached nn.index.leaves parent nn.features)
    (hlen : parent.length = state.length)
    (hp : ∀ id < nn.index.leaves.length, (featuresOf nn.index.leaves parent id).isSome ∧
      (featuresOf nn.index.leaves state id).isSome) :
    ∃ r, nn.evalSame state partition parent isNot = some r := by
  have hdirty : ∀ id ∈ nn.markDirtyLeaves parent isNot, id < nn.index.leaves.length :=
    fun id hid => dirty_lt hid
  obtain ⟨ls, g, hmap, hls, hg, heq⟩ := foldlM_addDirty state hc hdirty .empty
  have hdefined : ∀ p ∈ ls, nn.index.leaves[p.2]? = some p.1 ∧
      (featuresOf nn.index.leaves parent p.2).isSome ∧
      (featuresOf nn.index.leaves state p.2).isSome :=
    fun p hp' => ⟨hls p hp', hp _ (List.getElem?_eq_some_iff.mp (hls p hp')).1⟩
  obtain ⟨c, hcs⟩ : ∃ c, ls.foldlM (Classification.addBoth parent state) .empty = some c :=
    exists_foldlM hdefined
  obtain ⟨r, hr⟩ := exists_ensureParentSnapshot hg fun id hid => (hp id hid).1
  simp only [NumericNovelty.evalSame, if_pos hlen, heq, hcs, Option.map_some, Option.bind_eq_bind,
    Option.bind_some, hr]
  split_ifs
  · exact ⟨_, rfl⟩
  · exact ⟨_, rfl⟩

/-- Sparse and dense evaluation against a parent of the same partition agree. -/
theorem evalSame_eq_dense {partition k : ℕ} {tables : ℕ → PartitionTables}
    (hc : Cached nn.index.leaves parent nn.features) (hlen : parent.length = state.length)
    (hsound : ∀ f, isNot f = false → parent[f]? = state[f]?)
    (hd : NumericNovelty.evalDense nn.index.leaves nn.partitions state partition
      (some (parent, partition)) = some (k, tables)) :
    ∃ nn', nn.evalSame state partition parent isNot = some (k, nn') ∧ nn'.partitions = tables ∧
      nn'.index = nn.index ∧ nn'.maxPartition = nn.maxPartition ∧
      Cached nn.index.leaves parent nn'.features := by
  simp only [NumericNovelty.evalDense, if_true, Option.bind_eq_bind, Option.bind_eq_some_iff,
    Option.map_eq_some_iff, Option.pure_def, Option.some.injEq] at hd
  obtain ⟨-, ⟨c, hcs, rfl⟩, hd⟩ := hd
  obtain ⟨rfl, rfl⟩ := Prod.mk.inj hd
  have hall := visited_foldlM visited_empty (fun p hp => mem_zipIdx.mp hp) hcs
  have hrange : Visited (featuresOf nn.index.leaves parent) (featuresOf nn.index.leaves state)
      (List.range nn.index.leaves.length) c := by
    refine hall.congr fun x => ?_
    rw [List.append_nil, mem_map_zipIdx, List.mem_range]
  obtain ⟨⟨k, nn'⟩, hs⟩ : ∃ r, nn.evalSame state partition parent isNot = some r :=
    exists_evalSame hc hlen fun id hid => hrange.defined id (List.mem_range.mpr hid)
  obtain ⟨hindex, hmax, hcached, hcase⟩ := evalSame_cases hc hlen hsound hs
  rcases hcase with ⟨rfl, hsame, hno, -⟩ | ⟨c', hc', heq⟩
  · have hn : c.newlySatisfied = [] :=
      List.eq_nil_iff_forall_not_mem.mpr fun id hm => (hno id).1 ((hrange.newly id).mp hm).2
    have hi : c.numericImproved = [] :=
      List.eq_nil_iff_forall_not_mem.mpr fun id hm => (hno id).2 ((hrange.improved id).mp hm).2
    rw [passes_idle hn hi, Function.update_eq_self]
    exact ⟨nn', hs, hsame, hindex, hmax, hcached⟩
  · rw [passes_congr hc' hrange] at heq
    obtain ⟨rfl, hpart⟩ := Prod.mk.inj heq
    exact ⟨nn', hs, hpart, hindex, hmax, hcached⟩

theorem evalNew_eq_dense {partition k : ℕ} {tables : ℕ → PartitionTables}
    {from? : Option (Assignments × ℕ)} (hnew : ∀ p ∈ from?, p.2 ≠ partition)
    (hd : NumericNovelty.evalDense nn.index.leaves nn.partitions state partition from? =
      some (k, tables)) :
    nn.evalNew state partition = some (k, { nn with partitions := tables }) := by
  have hdense : ((nn.index.leaves.zipIdx.foldlM (Classification.addNew state) .empty).map
      fun c => c.passes (nn.partitions partition) true).map
        (fun r => (r.1, Function.update nn.partitions partition r.2)) = some (k, tables) := by
    cases from? with
    | none =>
      simpa [NumericNovelty.evalDense, Option.map_eq_some_iff, Option.bind_eq_some_iff] using hd
    | some p =>
      have hne := hnew p rfl
      simpa [NumericNovelty.evalDense, hne, Option.map_eq_some_iff, Option.bind_eq_some_iff] using hd
  simp only [Option.map_eq_some_iff] at hdense
  obtain ⟨r, ⟨c, hc, rfl⟩, heq⟩ := hdense
  obtain ⟨rfl, rfl⟩ := Prod.mk.inj heq
  simp only [NumericNovelty.evalNew, hc]
  rfl

end Sparse

/-! ### Runs -/

/-- A child of `parent`, with the partition it is evaluated in and which of its
values are other objects than its parent's. -/
structure Child (parent : Assignments) where
  state : Assignments
  partition : ℕ
  isNot : ℕ → Bool
  length : parent.length = state.length
  sound : ∀ f, isNot f = false → parent[f]? = state[f]?

structure Expansion where
  parent : Assignments
  parentPartition : ℕ
  children : List (Child parent)

namespace NumericNovelty

variable [Callables]

def evalChildren {parent : Assignments} (parentPartition : ℕ) :
    NumericNovelty → List (Child parent) → Option (List ℕ × NumericNovelty)
  | nn, [] => some ([], nn)
  | nn, c :: cs => do
    let (k, nn) ← nn.eval c.state c.partition (some (parent, parentPartition)) c.isNot
    let (ks, nn) ← evalChildren parentPartition nn cs
    return (k :: ks, nn)

def expandAll : NumericNovelty → List Expansion → Option (List ℕ × NumericNovelty)
  | nn, [] => some ([], nn)
  | nn, e :: es => do
    let (ks, nn) ← evalChildren e.parentPartition nn.beginExpansion e.children
    let (ls, nn) ← expandAll nn es
    return (ks ++ ls, nn)

/-- A search: the start, the root's evaluation, and then the expansions. -/
def run (nn : NumericNovelty) (initialH : ℚ) (init : Assignments) (es : List Expansion) :
    Option (List ℕ × NumericNovelty) := do
  let (partition, nn) ← nn.start initialH
  let (k, nn) ← nn.eval init partition none fun _ => true
  let (ks, nn) ← nn.expandAll es
  return (k :: ks, nn)

/-! The same with every evaluation from scratch. -/

def denseChildren (leaves : List Leaf) {parent : Assignments} (parentPartition : ℕ) :
    (ℕ → PartitionTables) → List (Child parent) → Option (List ℕ × (ℕ → PartitionTables))
  | tables, [] => some ([], tables)
  | tables, c :: cs => do
    let (k, tables) ← evalDense leaves tables c.state c.partition (some (parent, parentPartition))
    let (ks, tables) ← denseChildren leaves parentPartition tables cs
    return (k :: ks, tables)

def denseAll (leaves : List Leaf) :
    (ℕ → PartitionTables) → List Expansion → Option (List ℕ × (ℕ → PartitionTables))
  | tables, [] => some ([], tables)
  | tables, e :: es => do
    let (ks, tables) ← denseChildren leaves e.parentPartition tables e.children
    let (ls, tables) ← denseAll leaves tables es
    return (ks ++ ls, tables)

def runDense (nn : NumericNovelty) (initialH : ℚ) (init : Assignments) (es : List Expansion) :
    Option (List ℕ × (ℕ → PartitionTables)) := do
  let (partition, nn) ← nn.start initialH
  let (k, tables) ← evalDense nn.index.leaves nn.partitions init partition none
  let (ks, tables) ← denseAll nn.index.leaves tables es
  return (k :: ks, tables)

variable {nn : NumericNovelty} {parent : Assignments} {k : ℕ} {ks : List ℕ}
  {tables : ℕ → PartitionTables}

/-- One child: whatever is cached is the parent's, so it gets what the dense
evaluation gives it. -/
theorem eval_eq_dense {parentPartition : ℕ} (c : Child parent)
    (hc : Cached nn.index.leaves parent nn.features)
    (hd : evalDense nn.index.leaves nn.partitions c.state c.partition
      (some (parent, parentPartition)) = some (k, tables)) :
    ∃ nn', nn.eval c.state c.partition (some (parent, parentPartition)) c.isNot = some (k, nn') ∧
      nn'.partitions = tables ∧ nn'.index = nn.index ∧
      Cached nn.index.leaves parent nn'.features := by
  by_cases hp : parentPartition = c.partition
  · subst hp
    obtain ⟨nn', hs, hpart, hindex, -, hcached⟩ := evalSame_eq_dense hc c.length c.sound hd
    exact ⟨nn', by rw [eval, if_pos rfl, hs], hpart, hindex, hcached⟩
  · have hnew : ∀ p ∈ some (parent, parentPartition), p.2 ≠ c.partition := by
      intro p hp'
      obtain rfl := Option.some.inj hp'
      exact hp
    exact ⟨{ nn with partitions := tables }, by simp only [eval, if_neg hp, evalNew_eq_dense hnew hd],
      rfl, rfl, hc⟩

theorem evalChildren_eq_dense {parentPartition : ℕ} {cs : List (Child parent)}
    (hc : Cached nn.index.leaves parent nn.features)
    (hd : denseChildren nn.index.leaves parentPartition nn.partitions cs = some (ks, tables)) :
    ∃ nn', nn.evalChildren parentPartition cs = some (ks, nn') ∧ nn'.partitions = tables ∧
      nn'.index = nn.index := by
  induction cs generalizing nn ks with
  | nil =>
    obtain ⟨rfl, rfl⟩ := Prod.mk.inj (Option.some.inj hd)
    exact ⟨nn, rfl, rfl, rfl⟩
  | cons c cs ih =>
    simp only [denseChildren, Option.bind_eq_bind, Option.bind_eq_some_iff] at hd
    obtain ⟨⟨k, mid⟩, hk, ⟨ks', tables'⟩, hks, heq⟩ := hd
    obtain ⟨rfl, rfl⟩ := Prod.mk.inj (Option.some.inj heq)
    obtain ⟨nn₁, hone, rfl, hindex, hcached⟩ := eval_eq_dense c hc hk
    rw [← hindex] at hks hcached
    obtain ⟨nn₂, hrest, hpart, hindex'⟩ := ih hcached hks
    refine ⟨nn₂, ?_, hpart, hindex'.trans hindex⟩
    simp only [evalChildren, hone, Option.bind_eq_bind, Option.bind_some, hrest]
    rfl

theorem expandAll_eq_dense {es : List Expansion}
    (hd : denseAll nn.index.leaves nn.partitions es = some (ks, tables)) :
    ∃ nn', nn.expandAll es = some (ks, nn') ∧ nn'.partitions = tables ∧ nn'.index = nn.index := by
  induction es generalizing nn ks with
  | nil =>
    obtain ⟨rfl, rfl⟩ := Prod.mk.inj (Option.some.inj hd)
    exact ⟨nn, rfl, rfl, rfl⟩
  | cons e es ih =>
    simp only [denseAll, Option.bind_eq_bind, Option.bind_eq_some_iff] at hd
    obtain ⟨⟨ks₁, mid⟩, hk, ⟨ks₂, tables'⟩, hks, heq⟩ := hd
    obtain ⟨rfl, rfl⟩ := Prod.mk.inj (Option.some.inj heq)
    -- a fresh expansion has nothing cached
    have hempty : Cached nn.beginExpansion.index.leaves e.parent nn.beginExpansion.features :=
      cached_empty
    obtain ⟨nn₁, hone, rfl, hindex⟩ := evalChildren_eq_dense hempty hk
    have hindex' : nn₁.index = nn.index := hindex
    rw [← hindex'] at hks
    obtain ⟨nn₂, hrest, hpart, hlast⟩ := ih hks
    refine ⟨nn₂, ?_, hpart, hlast.trans hindex'⟩
    simp only [expandAll, hone, Option.bind_eq_bind, Option.bind_some, hrest]
    rfl

/-- Over a whole search the sparse evaluations return the classes and leave the
tables that evaluating everything from scratch does. -/
theorem run_eq_dense {initialH : ℚ} {init : Assignments} {es : List Expansion}
    (hd : nn.runDense initialH init es = some (ks, tables)) :
    ∃ nn', nn.run initialH init es = some (ks, nn') ∧ nn'.partitions = tables := by
  simp only [runDense, Option.bind_eq_bind, Option.bind_eq_some_iff] at hd
  obtain ⟨⟨p, nn₀⟩, hstart, ⟨k, mid⟩, hroot, ⟨ks', tables'⟩, hrest, heq⟩ := hd
  obtain ⟨rfl, rfl⟩ := Prod.mk.inj (Option.some.inj heq)
  have hnone : ∀ q ∈ (none : Option (Assignments × ℕ)), q.2 ≠ p := fun q hq => by contradiction
  have hone := evalNew_eq_dense hnone hroot
  have hall : denseAll ({ nn₀ with partitions := mid } : NumericNovelty).index.leaves
      ({ nn₀ with partitions := mid } : NumericNovelty).partitions es = some (ks', tables') := hrest
  obtain ⟨nn', hs, hpart, -⟩ := expandAll_eq_dense hall
  refine ⟨nn', ?_, hpart⟩
  simp only [run, hstart, Option.bind_eq_bind, Option.bind_some, eval, hone, hs]
  rfl

end NumericNovelty

section Counting

attribute [local instance] Callables.empty

/-- Two leaves: the first fluent holds, and the second is at least 2. -/
def counting : NumericNovelty where
  index := (LeafIndex.ofProblem [] [.fluent ⟨0⟩, .constant (.num 2), .fluent ⟨1⟩,
    .operator .le [1, 2], .operator .and [0, 3]] [.bool, .int]).get (by decide +kernel)
  partitions := fun _ => .empty
  maxPartition := 1
  features := .empty

/-- From 0 on, one child counts up, one sets the first fluent, one does nothing. -/
def countingExpansion : Expansion where
  parent := [.bool false, .num 0]
  parentPartition := 2
  children := [
    ⟨[.bool false, .num 1], 2, fun f => f = 1, rfl, by
      intro f hf
      match f with
      | 0 => rfl
      | 1 => simp at hf
      | n + 2 => rfl⟩,
    ⟨[.bool true, .num 0], 2, fun f => f = 0, rfl, by
      intro f hf
      match f with
      | 0 => simp at hf
      | n + 1 => rfl⟩,
    ⟨[.bool false, .num 0], 2, fun _ => false, rfl, fun _ _ => rfl⟩]

theorem counting_run : ∃ nn', counting.run 2 [.bool false, .num 0] [countingExpansion] =
    some ([1, 1, 1, 3], nn') := by
  have hd : (counting.runDense 2 [.bool false, .num 0] [countingExpansion]).map Prod.fst =
      some [1, 1, 1, 3] := by decide +kernel
  obtain ⟨⟨ks, tables⟩, hd, rfl⟩ := Option.map_eq_some_iff.mp hd
  obtain ⟨nn', hs, -⟩ := NumericNovelty.run_eq_dense hd
  exact ⟨nn', hs⟩

end Counting

end TamerLite
