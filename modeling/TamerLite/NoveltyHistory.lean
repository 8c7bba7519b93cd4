import TamerLite.NoveltyEvaluation

/-! The tables of satisfied leaves and pairs are the exact history of their
partition, although only what changed against the parent is ever written. -/

namespace TamerLite

open Records Features

section Passes

variable {c : Classification} {tables : PartitionTables} {newPartition : Bool}

theorem unorderedPair_comm (f tid : ℕ) :
    Classification.unorderedPair f tid = Classification.unorderedPair tid f := by
  unfold Classification.unorderedPair
  split_ifs
  · omega
  · rfl
  · rfl
  · simp only [Prod.mk.injEq]
    omega

/-- On a fresh partition every pair is enumerated from its earlier member. -/
theorem mem_satisfiedPairs_new (h : c.newlySatisfied = c.currentlySatisfied) {p : ℕ × ℕ} :
    p ∈ c.satisfiedPairs true ↔ ∃ f ∈ c.newlySatisfied, ∃ tid ∈ c.currentlySatisfied, tid ≠ f ∧
      p = Classification.unorderedPair f tid := by
  simp only [Classification.satisfiedPairs, if_true, List.mem_flatMap, List.mem_map,
    List.mem_filter, decide_eq_true_eq]
  constructor
  · intro hp
    obtain ⟨q, hq, tid, ⟨htid, hne⟩, rfl⟩ := hp
    exact ⟨q.1, List.fst_mem_of_mem_zipIdx hq, tid, List.mem_of_mem_drop htid, hne, rfl⟩
  · intro hp
    obtain ⟨f, hf, tid, htid, hne, rfl⟩ := hp
    rw [← h] at htid
    obtain ⟨i, hi, rfl⟩ := List.getElem_of_mem hf
    obtain ⟨j, hj, rfl⟩ := List.getElem_of_mem htid
    have hdrop : ∀ {a b : ℕ}, a < b → (hb : b < c.newlySatisfied.length) →
        c.newlySatisfied[b] ∈ c.currentlySatisfied.drop (a + 1) := by
      intro a b hab hb
      rw [← h]
      refine List.mem_of_getElem? (i := b - (a + 1)) ?_
      rw [List.getElem?_drop, show a + 1 + (b - (a + 1)) = b by omega, List.getElem?_eq_getElem hb]
    have hmem : ∀ {a : ℕ} (ha : a < c.newlySatisfied.length),
        (c.newlySatisfied[a], a) ∈ c.newlySatisfied.zipIdx :=
      fun ha => List.mem_zipIdx_iff_getElem?.mpr (List.getElem?_eq_getElem ha)
    rcases Nat.lt_trichotomy i j with hij | rfl | hij
    · exact ⟨_, hmem hi, _, ⟨hdrop hij hj, hne⟩, rfl⟩
    · exact absurd rfl hne
    · exact ⟨_, hmem hj, _, ⟨hdrop hij hi, hne.symm⟩, unorderedPair_comm _ _⟩

theorem passes_psiSeen (id : ℕ) : (c.passes tables newPartition).2.psiSeen id = true ↔
    tables.psiSeen id = true ∨ id ∈ c.newlySatisfied := by
  simp only [Classification.passes]
  exact note_seen _ _

theorem passes_psiPairSeen (p : ℕ × ℕ) : (c.passes tables newPartition).2.psiPairSeen p = true ↔
    tables.psiPairSeen p = true ∨ p ∈ c.satisfiedPairs newPartition := by
  simp only [Classification.passes]
  exact note_seen _ _

theorem passes_pos : 1 ≤ (c.passes tables newPartition).1 := by
  simp only [Classification.passes, improve_class, note_class]
  split_ifs <;> omega

/-- A new leaf makes class 1. -/
theorem passes_new_leaf {id : ℕ} (hid : id ∈ c.newlySatisfied) (hn : tables.psiSeen id = false) :
    (c.passes tables newPartition).1 = 1 := by
  have hex : ∃ k ∈ c.newlySatisfied, tables.psiSeen k = false := ⟨id, hid, hn⟩
  simp only [Classification.passes, improve_class, note_class, if_pos hex]
  split_ifs <;> rfl

/-- A new pair makes class 2 at most. -/
theorem passes_new_pair {p : ℕ × ℕ} (hp : p ∈ c.satisfiedPairs newPartition)
    (hn : tables.psiPairSeen p = false) : (c.passes tables newPartition).1 ≤ 2 := by
  have hex : ∃ k ∈ c.satisfiedPairs newPartition, tables.psiPairSeen k = false := ⟨p, hp, hn⟩
  simp only [Classification.passes, improve_class, note_class, if_pos hex]
  split_ifs <;> omega

end Passes

section History

variable [Callables]

/-- The satisfied leaves and pairs in the tables are those of the states
evaluated in each partition. -/
structure ExactHistory (leaves : List Leaf) (hist : List (ℕ × Assignments))
    (tables : ℕ → PartitionTables) : Prop where
  psi : ∀ p id, (tables p).psiSeen id = true ↔ ∃ s, (p, s) ∈ hist ∧ Sat (featuresOf leaves s) id
  pairs : ∀ p i j, (tables p).psiPairSeen (i, j) = true ↔ i < j ∧ ∃ s, (p, s) ∈ hist ∧
    Sat (featuresOf leaves s) i ∧ Sat (featuresOf leaves s) j

/-- What the class of a state has to tell about a partition's earlier states. -/
structure Judged (leaves : List Leaf) (hist : List (ℕ × Assignments)) (p : ℕ) (s : Assignments)
    (k : ℕ) : Prop where
  leaf : ∀ id, Sat (featuresOf leaves s) id →
    (∀ t, (p, t) ∈ hist → ¬ Sat (featuresOf leaves t) id) → k = 1
  pair : ∀ i j, i ≠ j → Sat (featuresOf leaves s) i → Sat (featuresOf leaves s) j →
    (∀ t, (p, t) ∈ hist → ¬ (Sat (featuresOf leaves t) i ∧ Sat (featuresOf leaves t) j)) →
    k = 1 ∨ k = 2

variable {leaves : List Leaf} {hist : List (ℕ × Assignments)} {tables : ℕ → PartitionTables}
  {p : ℕ} {s : Assignments} {c : Classification} {newPartition : Bool}

/-- The passes keep the history exact, if every satisfied leaf that is not new
was satisfied in one earlier state of the partition. -/
theorem ExactHistory.passes (h : ExactHistory leaves hist tables)
    (hnew : ∀ id ∈ c.newlySatisfied, Sat (featuresOf leaves s) id)
    (hcurr : ∀ id, id ∈ c.currentlySatisfied ↔ Sat (featuresOf leaves s) id)
    (hpairs : ∀ q, q ∈ c.satisfiedPairs newPartition ↔ ∃ f ∈ c.newlySatisfied,
      ∃ tid ∈ c.currentlySatisfied, tid ≠ f ∧ q = Classification.unorderedPair f tid)
    (hold : (∀ id, Sat (featuresOf leaves s) id → id ∈ c.newlySatisfied) ∨
      ∃ t, (p, t) ∈ hist ∧ ∀ id, Sat (featuresOf leaves s) id → id ∉ c.newlySatisfied →
        Sat (featuresOf leaves t) id) :
    ExactHistory leaves (hist ++ [(p, s)])
        (Function.update tables p (c.passes (tables p) newPartition).2) ∧
      Judged leaves hist p s (c.passes (tables p) newPartition).1 := by
  -- a pair with a new member is enumerated, and one without was seen with the earlier state
  have hmem : ∀ {i j}, i ≠ j → Sat (featuresOf leaves s) i → Sat (featuresOf leaves s) j →
      i ∈ c.newlySatisfied ∨ j ∈ c.newlySatisfied →
      Classification.unorderedPair i j ∈ c.satisfiedPairs newPartition := by
    intro i j hij hi hj hn
    rw [hpairs]
    rcases hn with hn | hn
    · exact ⟨i, hn, j, (hcurr j).mpr hj, hij.symm, rfl⟩
    · exact ⟨j, hn, i, (hcurr i).mpr hi, hij, unorderedPair_comm i j⟩
  have hback : ∀ {i j}, (i, j) ∈ c.satisfiedPairs newPartition →
      i < j ∧ Sat (featuresOf leaves s) i ∧ Sat (featuresOf leaves s) j := by
    intro i j hq
    obtain ⟨f, hf, tid, htid, hne, heq⟩ := (hpairs _).mp hq
    have hsf := hnew f hf
    have hst := (hcurr tid).mp htid
    unfold Classification.unorderedPair at heq
    split_ifs at heq with hlt
    · obtain ⟨rfl, rfl⟩ := Prod.mk.inj heq
      exact ⟨hlt, hsf, hst⟩
    · obtain ⟨rfl, rfl⟩ := Prod.mk.inj heq
      exact ⟨by omega, hst, hsf⟩
  have hother : ∀ {q : ℕ} {t : Assignments}, q ≠ p → ((q, t) ∈ hist ++ [(p, s)] ↔ (q, t) ∈ hist) := by
    intro q t hq
    simp [hq]
  refine ⟨⟨fun q id => ?_, fun q i j => ?_⟩, fun id hid hfirst => ?_, fun i j hij hi hj hfirst => ?_⟩
  · by_cases hq : q = p
    · subst hq
      rw [Function.update_self, passes_psiSeen, h.psi]
      constructor
      · intro hs
        rcases hs with ⟨t, ht, hsat⟩ | hn
        · exact ⟨t, List.mem_append_left _ ht, hsat⟩
        · exact ⟨s, by simp, hnew id hn⟩
      · intro hs
        obtain ⟨t, ht, hsat⟩ := hs
        rcases List.mem_append.mp ht with ht | ht
        · exact .inl ⟨t, ht, hsat⟩
        · obtain rfl : t = s := by simpa using ht
          by_cases hn : id ∈ c.newlySatisfied
          · exact .inr hn
          · rcases hold with hall | ⟨u, hu, hsub⟩
            · exact absurd (hall id hsat) hn
            · exact .inl ⟨u, hu, hsub id hsat hn⟩
    · rw [Function.update_of_ne hq, h.psi]
      simp only [hother hq]
  · by_cases hq : q = p
    · subst hq
      rw [Function.update_self, passes_psiPairSeen, h.pairs]
      constructor
      · intro hs
        rcases hs with ⟨hlt, t, ht, hsat⟩ | hn
        · exact ⟨hlt, t, List.mem_append_left _ ht, hsat⟩
        · obtain ⟨hlt, hsat⟩ := hback hn
          exact ⟨hlt, s, by simp, hsat⟩
      · intro hs
        obtain ⟨hlt, t, ht, hi, hj⟩ := hs
        rcases List.mem_append.mp ht with ht | ht
        · exact .inl ⟨hlt, t, ht, hi, hj⟩
        · obtain rfl : t = s := by simpa using ht
          by_cases hn : i ∈ c.newlySatisfied ∨ j ∈ c.newlySatisfied
          · have hm := hmem hlt.ne hi hj hn
            rw [Classification.unorderedPair, if_pos hlt] at hm
            exact .inr hm
          · rw [not_or] at hn
            rcases hold with hall | ⟨u, hu, hsub⟩
            · exact absurd (hall i hi) hn.1
            · exact .inl ⟨hlt, u, hu, hsub i hi hn.1, hsub j hj hn.2⟩
    · rw [Function.update_of_ne hq, h.pairs]
      simp only [hother hq]
  · have hunseen : (tables p).psiSeen id = false := by
      by_contra hs
      obtain ⟨t, ht, hsat⟩ := (h.psi p id).mp (by simpa using hs)
      exact hfirst t ht hsat
    refine passes_new_leaf ?_ hunseen
    by_contra hn
    rcases hold with hall | ⟨u, hu, hsub⟩
    · exact hn (hall id hid)
    · exact hfirst u hu (hsub id hid hn)
  · have hn : i ∈ c.newlySatisfied ∨ j ∈ c.newlySatisfied := by
      by_contra hn
      rw [not_or] at hn
      rcases hold with hall | ⟨u, hu, hsub⟩
      · exact hn.1 (hall i hi)
      · exact hfirst u hu ⟨hsub i hi hn.1, hsub j hj hn.2⟩
    have hunseen : (tables p).psiPairSeen (Classification.unorderedPair i j) = false := by
      by_contra hs
      rw [Bool.not_eq_false] at hs
      unfold Classification.unorderedPair at hs
      split_ifs at hs
      · obtain ⟨-, t, ht, hsat⟩ := (h.pairs p i j).mp hs
        exact hfirst t ht hsat
      · obtain ⟨-, t, ht, hsat⟩ := (h.pairs p j i).mp hs
        exact hfirst t ht hsat.symm
    have hle := passes_new_pair (hmem hij hi hj hn) hunseen
    have hpos : 1 ≤ (c.passes (tables p) newPartition).1 := passes_pos
    omega

theorem foldlM_addNew {ls : List (Leaf × ℕ)} {vs : List ℕ} {c' : Classification}
    (hls : ∀ q ∈ ls, leaves[q.2]? = some q.1) (heq : c.newlySatisfied = c.currentlySatisfied)
    (hc : ∀ id, id ∈ c.currentlySatisfied ↔ id ∈ vs ∧ Sat (featuresOf leaves s) id)
    (hs : ls.foldlM (Classification.addNew s) c = some c') :
    c'.newlySatisfied = c'.currentlySatisfied ∧ ∀ id, id ∈ c'.currentlySatisfied ↔
      (id ∈ ls.map Prod.snd ∨ id ∈ vs) ∧ Sat (featuresOf leaves s) id := by
  induction ls generalizing c vs with
  | nil =>
    obtain rfl := Option.some.inj hs
    exact ⟨heq, by simpa using hc⟩
  | cons q ls ih =>
    rw [List.foldlM_cons, Option.bind_eq_bind, Option.bind_eq_some_iff] at hs
    obtain ⟨d, hd, hs⟩ := hs
    obtain ⟨leaf, id⟩ := q
    have hl := hls _ List.mem_cons_self
    have hrest : ∀ q ∈ ls, leaves[q.2]? = some q.1 := fun q hq => hls q (List.mem_cons_of_mem _ hq)
    have hsat : ∀ {o : Option ℚ} {b : Bool}, leaf.feature s = some (o, b) →
        (Sat (featuresOf leaves s) id ↔ b = true) := by
      intro o b hf
      rw [Sat, featuresOf_eq hl, hf]
      simp
    have hstep : d.newlySatisfied = d.currentlySatisfied ∧ ∀ x, x ∈ d.currentlySatisfied ↔
        x ∈ id :: vs ∧ Sat (featuresOf leaves s) x := by
      cases leaf with
      | prop operand =>
        simp only [Classification.addNew, Option.bind_eq_bind, Option.bind_eq_some_iff] at hd
        obtain ⟨b, hb, hd⟩ := hd
        have hb' := hsat (o := none) (b := b) (by rw [Leaf.feature, hb, Option.map_some])
        cases b with
        | true =>
          obtain rfl := Option.some.inj hd
          exact ⟨by rw [heq], mem_visit hc (hb'.mpr rfl)⟩
        | false =>
          obtain rfl := Option.some.inj hd
          exact ⟨heq, mem_skip hc (by simp [hb'])⟩
      | num lhs rhs kind =>
        simp only [Classification.addNew, Option.bind_eq_bind, Option.bind_eq_some_iff] at hd
        obtain ⟨⟨r, b⟩, hb, hd⟩ := hd
        have hb' := hsat (o := some r) (b := b) (by rw [Leaf.feature, hb, Option.map_some])
        cases b with
        | true =>
          obtain rfl := Option.some.inj hd
          exact ⟨by simp only [heq], mem_visit hc (hb'.mpr rfl)⟩
        | false =>
          obtain rfl := Option.some.inj hd
          exact ⟨heq, mem_skip hc (by simp [hb'])⟩
    obtain ⟨hfinal, hmem⟩ := ih hrest hstep.1 hstep.2 hs
    refine ⟨hfinal, fun x => ?_⟩
    rw [hmem, List.map_cons, List.mem_cons, List.mem_cons]
    tauto

theorem ExactHistory.evalNew {nn nn' : NumericNovelty} {k : ℕ}
    (h : ExactHistory nn.index.leaves hist nn.partitions) (hs : nn.evalNew s p = some (k, nn')) :
    nn'.index = nn.index ∧ nn'.features = nn.features ∧
      ExactHistory nn.index.leaves (hist ++ [(p, s)]) nn'.partitions ∧
      Judged nn.index.leaves hist p s k := by
  simp only [NumericNovelty.evalNew, Option.bind_eq_bind, Option.bind_eq_some_iff, Option.pure_def,
    Option.some.injEq] at hs
  obtain ⟨c, hc, hs⟩ := hs
  obtain ⟨rfl, rfl⟩ := Prod.mk.inj hs
  have hempty : ∀ id, id ∈ Classification.empty.currentlySatisfied ↔
      id ∈ ([] : List ℕ) ∧ Sat (featuresOf nn.index.leaves s) id := by simp [Classification.empty]
  obtain ⟨heq, hmem⟩ := foldlM_addNew (fun q hq => mem_zipIdx.mp hq) rfl hempty hc
  have hcurr : ∀ id, id ∈ c.currentlySatisfied ↔ Sat (featuresOf nn.index.leaves s) id := by
    intro id
    rw [hmem]
    refine and_iff_right_of_imp fun hsat => .inl (mem_map_zipIdx.mpr ?_)
    obtain ⟨d, hd⟩ := hsat
    exact featuresOf_isSome (a := s) (by simp [hd])
  have hnewly : ∀ id ∈ c.newlySatisfied, Sat (featuresOf nn.index.leaves s) id :=
    fun id hid => (hcurr id).mp (heq ▸ hid)
  exact ⟨rfl, rfl, h.passes hnewly hcurr (fun q => mem_satisfiedPairs_new heq)
    (.inl fun id hid => heq ▸ (hcurr id).mpr hid)⟩

theorem ExactHistory.evalSame {nn nn' : NumericNovelty} {k : ℕ} {parent : Assignments}
    {isNot : ℕ → Bool} (h : ExactHistory nn.index.leaves hist nn.partitions)
    (hp : (p, parent) ∈ hist) (hc : Cached nn.index.leaves parent nn.features)
    (hlen : parent.length = s.length) (hsound : ∀ f, isNot f = false → parent[f]? = s[f]?)
    (hs : nn.evalSame s p parent isNot = some (k, nn')) :
    nn'.index = nn.index ∧ Cached nn.index.leaves parent nn'.features ∧
      ExactHistory nn.index.leaves (hist ++ [(p, s)]) nn'.partitions ∧
      Judged nn.index.leaves hist p s k := by
  obtain ⟨hindex, -, hcached, hcase⟩ := evalSame_cases hc hlen hsound hs
  refine ⟨hindex, hcached, ?_⟩
  rcases hcase with ⟨-, hpart, -, hsub⟩ | ⟨c, hvis, heq⟩
  · rw [hpart]
    have hadd : ∀ {q t}, (q, t) ∈ hist ++ [(p, s)] ↔ (q, t) ∈ hist ∨ q = p ∧ t = s := by
      intro q t
      simp
    refine ⟨⟨fun q id => ?_, fun q i j => ?_⟩, fun id hid hfirst => ?_, fun i j _ hi hj hfirst => ?_⟩
    · rw [h.psi]
      refine ⟨fun ⟨t, ht, hsat⟩ => ⟨t, hadd.mpr (.inl ht), hsat⟩, fun ⟨t, ht, hsat⟩ => ?_⟩
      rcases hadd.mp ht with ht | ⟨rfl, rfl⟩
      · exact ⟨t, ht, hsat⟩
      · exact ⟨parent, hp, hsub id hsat⟩
    · rw [h.pairs]
      refine and_congr_right fun _ => ⟨fun ⟨t, ht, hsat⟩ => ⟨t, hadd.mpr (.inl ht), hsat⟩,
        fun ⟨t, ht, hi, hj⟩ => ?_⟩
      rcases hadd.mp ht with ht | ⟨rfl, rfl⟩
      · exact ⟨t, ht, hi, hj⟩
      · exact ⟨parent, hp, hsub i hi, hsub j hj⟩
    · exact absurd (hsub id hid) (hfirst parent hp)
    · exact absurd ⟨hsub i hi, hsub j hj⟩ (hfirst parent hp)
  · obtain ⟨rfl, hpart⟩ := Prod.mk.inj heq
    rw [hpart]
    have hlt : ∀ {id}, Sat (featuresOf nn.index.leaves s) id → id ∈ List.range nn.index.leaves.length := by
      intro id hsat
      obtain ⟨d, hd⟩ := hsat
      exact List.mem_range.mpr (featuresOf_isSome (a := s) (by simp [hd]))
    refine h.passes (fun id hid => ((hvis.newly id).mp hid).2.1) (fun id => ?_)
      (fun q => mem_satisfiedPairs) (.inr ⟨parent, hp, fun id hsat hn => ?_⟩)
    · rw [hvis.current]
      exact and_iff_right_of_imp hlt
    · refine (sat_or_newly (hvis.defined id (hlt hsat)).1 hsat).resolve_right fun hnewly => ?_
      exact hn ((hvis.newly id).mpr ⟨hlt hsat, hnewly⟩)

end History

/-! ### Runs -/

section Runs

variable [Callables]

/-- The evaluations of an expansion, as partition and state. -/
def Expansion.evaluated (e : Expansion) : List (ℕ × Assignments) :=
  e.children.map fun c => (c.partition, c.state)

/-- Each expanded state was evaluated before, in the partition it has. -/
def ParentsEvaluated : List (ℕ × Assignments) → List Expansion → Prop
  | _, [] => True
  | hist, e :: es => (e.parentPartition, e.parent) ∈ hist ∧ ParentsEvaluated (hist ++ e.evaluated) es

/-- Each class tells what it has to about the evaluations before it. -/
def AllJudged (leaves : List Leaf) : List (ℕ × Assignments) → List (ℕ × Assignments) → List ℕ → Prop
  | _, [], [] => True
  | hist, e :: evs, k :: ks => Judged leaves hist e.1 e.2 k ∧ AllJudged leaves (hist ++ [e]) evs ks
  | _, _, _ => False

variable {leaves : List Leaf} {hist : List (ℕ × Assignments)}

theorem AllJudged.append {evs evs' : List (ℕ × Assignments)} {ks ks' : List ℕ}
    (h : AllJudged leaves hist evs ks) (h' : AllJudged leaves (hist ++ evs) evs' ks') :
    AllJudged leaves hist (evs ++ evs') (ks ++ ks') := by
  induction evs generalizing hist ks with
  | nil =>
    cases ks with
    | nil => simpa using h'
    | cons k ks => exact absurd h id
  | cons e evs ih =>
    cases ks with
    | nil => exact absurd h id
    | cons k ks =>
      refine ⟨h.1, ih h.2 ?_⟩
      rwa [List.append_assoc, List.singleton_append]

namespace NumericNovelty

variable {nn nn' : NumericNovelty} {parent : Assignments} {ks : List ℕ}

theorem evalChildren_exact {parentPartition : ℕ} {cs : List (Child parent)}
    (h : ExactHistory nn.index.leaves hist nn.partitions)
    (hp : (parentPartition, parent) ∈ hist) (hc : Cached nn.index.leaves parent nn.features)
    (hs : nn.evalChildren parentPartition cs = some (ks, nn')) : nn'.index = nn.index ∧
      ExactHistory nn.index.leaves (hist ++ cs.map fun c => (c.partition, c.state)) nn'.partitions ∧
      AllJudged nn.index.leaves hist (cs.map fun c => (c.partition, c.state)) ks := by
  induction cs generalizing nn hist ks with
  | nil =>
    obtain ⟨rfl, rfl⟩ := Prod.mk.inj (Option.some.inj hs)
    exact ⟨rfl, by simpa using h, trivial⟩
  | cons c cs ih =>
    simp only [evalChildren, Option.bind_eq_bind, Option.bind_eq_some_iff] at hs
    obtain ⟨⟨k, mid⟩, hone, ⟨ks', last⟩, hrest, heq⟩ := hs
    obtain ⟨rfl, rfl⟩ := Prod.mk.inj (Option.some.inj heq)
    have hstep : mid.index = nn.index ∧ Cached nn.index.leaves parent mid.features ∧
        ExactHistory nn.index.leaves (hist ++ [(c.partition, c.state)]) mid.partitions ∧
        Judged nn.index.leaves hist c.partition c.state k := by
      rw [eval] at hone
      split_ifs at hone with hpart
      · exact h.evalSame (hpart ▸ hp) hc c.length c.sound hone
      · obtain ⟨hindex, hfeat, hexact, hjudged⟩ := h.evalNew hone
        exact ⟨hindex, hfeat.symm ▸ hc, hexact, hjudged⟩
    obtain ⟨hindex, hcached, hexact, hjudged⟩ := hstep
    rw [← hindex] at hexact hcached
    obtain ⟨hindex', hexact', hjudged'⟩ := ih hexact (List.mem_append_left _ hp) hcached hrest
    rw [hindex] at hexact' hjudged'
    rw [List.map_cons]
    refine ⟨hindex'.trans hindex, ?_, hjudged, hjudged'⟩
    rwa [List.append_assoc, List.singleton_append] at hexact'

theorem expandAll_exact {es : List Expansion}
    (h : ExactHistory nn.index.leaves hist nn.partitions) (hes : ParentsEvaluated hist es)
    (hs : nn.expandAll es = some (ks, nn')) :
    ExactHistory nn.index.leaves (hist ++ es.flatMap Expansion.evaluated) nn'.partitions ∧
      AllJudged nn.index.leaves hist (es.flatMap Expansion.evaluated) ks := by
  induction es generalizing nn hist ks with
  | nil =>
    obtain ⟨rfl, rfl⟩ := Prod.mk.inj (Option.some.inj hs)
    exact ⟨by simpa using h, trivial⟩
  | cons e es ih =>
    simp only [expandAll, Option.bind_eq_bind, Option.bind_eq_some_iff] at hs
    obtain ⟨⟨ks₁, mid⟩, hone, ⟨ks₂, last⟩, hrest, heq⟩ := hs
    obtain ⟨rfl, rfl⟩ := Prod.mk.inj (Option.some.inj heq)
    have hempty : Cached nn.beginExpansion.index.leaves e.parent nn.beginExpansion.features :=
      cached_empty
    have hstart : ExactHistory nn.beginExpansion.index.leaves hist nn.beginExpansion.partitions := h
    obtain ⟨hindex, hexact, hjudged⟩ := evalChildren_exact hstart hes.1 hempty hone
    have hindex' : mid.index = nn.index := hindex
    have hmid : ExactHistory mid.index.leaves (hist ++ e.evaluated) mid.partitions := by
      rw [hindex']
      exact hexact
    obtain ⟨hexact', hjudged'⟩ := ih hmid hes.2 hrest
    rw [hindex'] at hexact' hjudged'
    rw [List.flatMap_cons, ← List.append_assoc]
    exact ⟨hexact', AllJudged.append hjudged hjudged'⟩

/-- After any run of expansions of evaluated states the tables are the exact
history of each partition, and every class said what was new. -/
theorem run_exact {initialH : ℚ} {init : Assignments} {es : List Expansion} {p : ℕ}
    {nn₀ : NumericNovelty} (hstart : nn.start initialH = some (p, nn₀))
    (hes : ParentsEvaluated [(p, init)] es) (hs : nn.run initialH init es = some (ks, nn')) :
    ExactHistory nn.index.leaves ((p, init) :: es.flatMap Expansion.evaluated) nn'.partitions ∧
      AllJudged nn.index.leaves [] ((p, init) :: es.flatMap Expansion.evaluated) ks := by
  simp only [run, hstart, Option.bind_eq_bind, Option.bind_some, Option.bind_eq_some_iff] at hs
  obtain ⟨⟨k, mid⟩, hroot, ⟨ks', last⟩, hrest, heq⟩ := hs
  obtain ⟨rfl, rfl⟩ := Prod.mk.inj (Option.some.inj heq)
  have hindex₀ : nn₀.index = nn.index ∧ nn₀.partitions = fun _ => .empty := by
    unfold start at hstart
    split_ifs at hstart
    obtain ⟨q, -, heq⟩ := Option.map_eq_some_iff.mp hstart
    obtain ⟨-, rfl⟩ := Prod.mk.inj heq
    exact ⟨rfl, rfl⟩
  have hempty : ExactHistory nn₀.index.leaves [] nn₀.partitions := by
    rw [hindex₀.2]
    refine ⟨fun q id => ?_, fun q i j => ?_⟩ <;> simp [PartitionTables.empty]
  obtain ⟨hindex, -, hexact, hjudged⟩ := hempty.evalNew hroot
  rw [← hindex] at hexact
  obtain ⟨hexact', hjudged'⟩ := expandAll_exact hexact hes hrest
  rw [hindex, hindex₀.1] at hexact' hjudged'
  rw [hindex₀.1] at hjudged
  exact ⟨hexact', hjudged, hjudged'⟩

end NumericNovelty

end Runs

section Counting

attribute [local instance] Callables.empty

theorem counting_exact : ∃ nn', ∃ ks, counting.run 2 [.bool false, .num 0] [countingExpansion] =
      some (ks, nn') ∧ ks = [1, 1, 1, 3] ∧
    ExactHistory counting.index.leaves ((2, [.bool false, .num 0]) ::
      [countingExpansion].flatMap Expansion.evaluated) nn'.partitions := by
  have hs : (counting.run 2 [.bool false, .num 0] [countingExpansion]).map Prod.fst =
      some [1, 1, 1, 3] := by decide +kernel
  have hp : (counting.start 2).map Prod.fst = some 2 := by decide +kernel
  obtain ⟨⟨ks, nn'⟩, hs, rfl⟩ := Option.map_eq_some_iff.mp hs
  obtain ⟨⟨p, nn₀⟩, hp, rfl⟩ := Option.map_eq_some_iff.mp hp
  have hes : ParentsEvaluated [(2, [.bool false, .num 0])] [countingExpansion] :=
    ⟨List.mem_cons_self, trivial⟩
  exact ⟨nn', _, hs, rfl, (NumericNovelty.run_exact hp hes hs).1⟩

end Counting

end TamerLite
