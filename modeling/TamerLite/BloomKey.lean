import Mathlib.Data.List.Sort
import TamerLite.Classical
import TamerLite.Dedup
import TamerLite.HMaxAdmissible

/-! The key of the memory-bounded duplicate detection, which tells states apart
as the exact one does. -/

namespace TamerLite

open SearchSpace

/-! ### Texts and separators -/

theorem append_cons_inj {α : Type*} {c : α} {x y x' y' : List α} (hx : c ∉ x) (hx' : c ∉ x') :
    x ++ c :: y = x' ++ c :: y' ↔ x = x' ∧ y = y' := by
  induction x generalizing x' with
  | nil =>
    cases x' with
    | nil => simp
    | cons a x' =>
      have ha : c ≠ a := fun h => hx' (h ▸ List.mem_cons_self)
      simp [ha]
  | cons b x ih =>
    have hb : b ≠ c := fun h => hx (h ▸ List.mem_cons_self)
    cases x' with
    | nil => simp [hb]
    | cons a x' =>
      have hih : x ++ c :: y = x' ++ c :: y' ↔ x = x' ∧ y = y' :=
        ih (fun h => hx (List.mem_cons_of_mem b h)) fun h => hx' (List.mem_cons_of_mem a h)
      simp [hih, and_assoc]

theorem intercalate_ne_nil {α : Type*} {c : α} {ls : List (List α)} (hls : ls ≠ [])
    (hne : ∀ l ∈ ls, l ≠ []) : [c].intercalate ls ≠ [] := by
  obtain ⟨l, ls, rfl⟩ := List.exists_cons_of_ne_nil hls
  have hl := hne l List.mem_cons_self
  cases ls with
  | nil => simpa using hl
  | cons m ls => simp [List.intercalate_cons_cons, hl]

theorem notMem_intercalate {α : Type*} {c x : α} {ls : List (List α)} (hx : x ≠ c)
    (hls : ∀ l ∈ ls, x ∉ l) : x ∉ [c].intercalate ls := by
  induction ls with
  | nil => simp
  | cons l ls ih =>
    have hl := hls l List.mem_cons_self
    have hih := ih fun m hm => hls m (List.mem_cons_of_mem l hm)
    cases ls with
    | nil => simpa using hl
    | cons m ls => simp [List.intercalate_cons_cons, hl, hx, hih]

/-- Texts that are not empty and do not hold the separator can be read back. -/
theorem intercalate_inj {α : Type*} [DecidableEq α] {c : α} {ls ms : List (List α)}
    (hl : ∀ l ∈ ls, c ∉ l ∧ l ≠ []) (hm : ∀ m ∈ ms, c ∉ m ∧ m ≠ []) :
    [c].intercalate ls = [c].intercalate ms ↔ ls = ms := by
  constructor
  · intro h
    by_cases hls : ls = []
    · by_contra hms
      have hmne : ms ≠ [] := fun h => hms (hls.trans h.symm)
      refine intercalate_ne_nil hmne (fun m hm' => (hm m hm').2) (h.symm.trans ?_)
      rw [hls]
      rfl
    · by_cases hms : ms = []
      · refine absurd (h.trans ?_) (intercalate_ne_nil hls fun l hl' => (hl l hl').2)
        rw [hms]
        rfl
      · rw [← List.splitOn_intercalate c (fun l hl' => (hl l hl').1) hls, h,
          List.splitOn_intercalate c (fun m hm' => (hm m hm').1) hms]
  · intro h
    rw [h]

theorem toDigits_inj {m n : ℕ} : Nat.toDigits 10 m = Nat.toDigits 10 n ↔ m = n := by
  constructor
  · intro h
    rw [← Nat.ofDigitChars_ten_toDigits (n := m), h, Nat.ofDigitChars_ten_toDigits]
  · intro h
    rw [h]

theorem notMem_toDigits {c : Char} (n : ℕ) (hc : c.isDigit = false) : c ∉ Nat.toDigits 10 n := by
  intro h
  rw [Nat.isDigit_of_mem_toDigits (by decide) (by decide) h] at hc
  exact Bool.noConfusion hc

/-! ### The key -/

def intText (n : ℤ) : List Char :=
  if n < 0 then '-' :: Nat.toDigits 10 n.natAbs else Nat.toDigits 10 n.natAbs

def ConstantNode.text : ConstantNode → List Char
  | bool b => if b then ['1'] else ['0']
  | num q => if q.den = 1 then intText q.num else intText q.num ++ '/' :: Nat.toDigits 10 q.den
  | object o => Nat.toDigits 10 o.idx

/-- The actions in progress with their next events, sorted by action. -/
def State.todoItems (s : State) : List (ℕ × ℕ) :=
  (s.todo.entries.map fun p => (p.1.idx, p.2.1)).insertionSort fun p q => p.1 ≤ q.1

def todoText (p : ℕ × ℕ) : List Char := Nat.toDigits 10 p.1 ++ ':' :: Nat.toDigits 10 p.2

/-- `_bloom_key`. -/
def bloomKey (s : State) : List Char :=
  ['|'].intercalate (s.assignments.map ConstantNode.text) ++
    '#' :: [','].intercalate (s.todoItems.map todoText)

theorem intText_inj {m n : ℤ} : intText m = intText n ↔ m = n := by
  constructor
  · intro h
    have hm := notMem_toDigits (c := '-') m.natAbs (by decide)
    have hn := notMem_toDigits (c := '-') n.natAbs (by decide)
    unfold intText at h
    split_ifs at h with h₁ h₂ h₂
    · have := toDigits_inj.mp (List.cons.inj h).2
      omega
    · exact absurd (h ▸ List.mem_cons_self) hn
    · exact absurd (h ▸ List.mem_cons_self) hm
    · have := toDigits_inj.mp h
      omega
  · intro h
    rw [h]

theorem notMem_intText {c : Char} (n : ℤ) (hc : c.isDigit = false) (hm : c ≠ '-') :
    c ∉ intText n := by
  have hd := notMem_toDigits n.natAbs hc
  unfold intText
  split_ifs
  · simp [hd, hm]
  · exact hd

theorem intText_ne_nil (n : ℤ) : intText n ≠ [] := by
  unfold intText
  split_ifs
  · simp
  · exact Nat.toDigits_ne_nil

/-- A value's text holds no separator of the key. -/
theorem notMem_text {c : Char} (v : ConstantNode) (hc : c.isDigit = false) (hm : c ≠ '-')
    (hs : c ≠ '/') : c ∉ v.text := by
  cases v with
  | bool b =>
    cases b with
    | true => exact fun h => absurd hc (by rw [List.mem_singleton.mp h]; decide)
    | false => exact fun h => absurd hc (by rw [List.mem_singleton.mp h]; decide)
  | num q =>
    have hn := notMem_intText q.num hc hm
    have hd := notMem_toDigits q.den hc
    rw [ConstantNode.text]
    split_ifs
    · exact hn
    · simp [hn, hd, hs]
  | object o => exact notMem_toDigits o.idx hc

theorem text_ne_nil (v : ConstantNode) : v.text ≠ [] := by
  cases v with
  | bool b => cases b <;> simp [ConstantNode.text]
  | num q =>
    rw [ConstantNode.text]
    split_ifs
    · exact intText_ne_nil _
    · simp
  | object o => exact Nat.toDigits_ne_nil

/-- Values of one type have the same text only when they are equal. -/
theorem text_inj {v w : ConstantNode} (h : v.type = w.type) : v.text = w.text ↔ v = w := by
  constructor
  · intro ht
    cases v with
    | bool b =>
      cases w with
      | bool b' => cases b <;> cases b' <;> simp_all [ConstantNode.text]
      | num | object => cases h
    | num q =>
      cases w with
      | num r =>
        have hq := notMem_intText (c := '/') q.num (by decide) (by decide)
        have hr := notMem_intText (c := '/') r.num (by decide) (by decide)
        rw [ConstantNode.text, ConstantNode.text] at ht
        split_ifs at ht with hd hd' hd'
        · exact congrArg _ (Rat.ext (intText_inj.mp ht) (hd.trans hd'.symm))
        · exact absurd (ht ▸ by simp) hq
        · exact absurd (ht ▸ by simp) hr
        · obtain ⟨hn, hd⟩ := (append_cons_inj hq hr).mp ht
          exact congrArg _ (Rat.ext (intText_inj.mp hn) (toDigits_inj.mp hd))
      | bool | object => cases h
    | object o =>
      cases w with
      | object p => exact congrArg (fun i => ConstantNode.object ⟨i⟩) (toDigits_inj.mp ht)
      | bool | num => cases h
  · intro h
    rw [h]

theorem text_injective {vs ws : List ConstantNode}
    (h : vs.map ConstantNode.type = ws.map ConstantNode.type)
    (ht : vs.map ConstantNode.text = ws.map ConstantNode.text) : vs = ws := by
  induction vs generalizing ws with
  | nil => exact (List.map_eq_nil_iff.mp h.symm).symm
  | cons v vs ih =>
    cases ws with
    | nil => cases h
    | cons w ws =>
      obtain ⟨hv, hvs⟩ := List.cons.inj h
      obtain ⟨tv, tvs⟩ := List.cons.inj ht
      rw [(text_inj hv).mp tv, ih hvs tvs]

theorem todoText_inj {p q : ℕ × ℕ} : todoText p = todoText q ↔ p = q := by
  have hp := notMem_toDigits (c := ':') p.1 (by decide)
  have hq := notMem_toDigits (c := ':') q.1 (by decide)
  rw [todoText, todoText, append_cons_inj hp hq, toDigits_inj, toDigits_inj, Prod.ext_iff]

/-! ### Keys and states -/

section States

variable {s t : State}

theorem mem_todoItems {i k : ℕ} :
    (i, k) ∈ s.todoItems ↔ (s.todo.lookup ⟨i⟩).map Prod.fst = some k := by
  rw [State.todoItems, (List.perm_insertionSort _ _).mem_iff, List.mem_map, Option.map_eq_some_iff]
  constructor
  · rintro ⟨⟨a, p⟩, hp, he⟩
    obtain ⟨rfl, rfl⟩ := Prod.mk.inj he
    exact ⟨p, AList.mem_lookup_iff.mpr hp, rfl⟩
  · rintro ⟨p, hp, rfl⟩
    exact ⟨⟨⟨i⟩, p⟩, AList.mem_lookup_iff.mp hp, rfl⟩

theorem todoItems_pairwise (s : State) : s.todoItems.Pairwise fun p q => p.1 < q.1 := by
  have hsort := List.pairwise_insertionSort (fun p q : ℕ × ℕ => p.1 ≤ q.1)
    (s.todo.entries.map fun p => (p.1.idx, p.2.1))
  have hkeys : (s.todo.entries.map Sigma.fst).Nodup := s.todo.nodupKeys
  have hnodup : ((s.todo.entries.map fun p => (p.1.idx, p.2.1)).map Prod.fst).Nodup := by
    have hmap : (s.todo.entries.map fun p => (p.1.idx, p.2.1)).map Prod.fst =
        (s.todo.entries.map Sigma.fst).map Action.idx := by simp
    rw [hmap]
    exact hkeys.map fun a b h => by cases a; cases b; exact congrArg _ h
  have hne : s.todoItems.Pairwise fun p q => p.1 ≠ q.1 := by
    refine List.pairwise_map.mp ?_
    exact ((List.perm_insertionSort _ _).map Prod.fst).nodup_iff.mpr hnodup
  exact hsort.imp₂ (fun p q hle hne => lt_of_le_of_ne hle hne) hne

/-- The items tell what the equality of the exact duplicate table compares. -/
theorem todoItems_eq_iff : s.todoItems = t.todoItems ↔
    ∀ a, (s.todo.lookup a).map Prod.fst = (t.todo.lookup a).map Prod.fst := by
  constructor
  · intro h a
    refine Option.ext fun k => ?_
    obtain ⟨i⟩ := a
    rw [← mem_todoItems, h, mem_todoItems]
  · intro h
    refine List.Pairwise.eq_of_mem_iff (todoItems_pairwise s) (todoItems_pairwise t) fun p => ?_
    rw [mem_todoItems, mem_todoItems, h]

theorem weakEq_iff : s.weakEq t = true ↔ s.assignments = t.assignments ∧
    ∀ a, (s.todo.lookup a).map Prod.fst = (t.todo.lookup a).map Prod.fst := by
  constructor
  · exact VisitedStates.weakEq_spec
  · rintro ⟨has, htodo⟩
    have hlen : s.todo.entries.length = t.todo.entries.length := by
      have := congrArg List.length (todoItems_eq_iff.mpr htodo)
      simpa [State.todoItems] using this
    simp only [State.weakEq, Bool.and_eq_true, decide_eq_true_eq, List.all_eq_true,
      Option.any_eq_true]
    refine ⟨⟨hlen, has⟩, fun p hp => ?_⟩
    have hl := AList.mem_lookup_iff.mpr hp
    have hmap := htodo p.1
    rw [hl, Option.map_some, eq_comm, Option.map_eq_some_iff] at hmap
    exact hmap

theorem bloomKey_eq_iff (h : s.assignments.map ConstantNode.type = t.assignments.map ConstantNode.type) :
    bloomKey s = bloomKey t ↔ s.weakEq t = true := by
  have hvalues : ∀ (s : State), ∀ x ∈ s.assignments.map ConstantNode.text, '|' ∉ x ∧ x ≠ [] := by
    intro s x hx
    obtain ⟨v, -, rfl⟩ := List.mem_map.mp hx
    exact ⟨notMem_text v (by decide) (by decide) (by decide), text_ne_nil v⟩
  have hitems : ∀ (s : State), ∀ x ∈ s.todoItems.map todoText, ',' ∉ x ∧ x ≠ [] := by
    intro s x hx
    obtain ⟨p, -, rfl⟩ := List.mem_map.mp hx
    have h₁ := notMem_toDigits (c := ',') p.1 (by decide)
    have h₂ := notMem_toDigits (c := ',') p.2 (by decide)
    exact ⟨by simp [todoText, h₁, h₂], by simp [todoText]⟩
  have hhash : ∀ (s : State), '#' ∉ ['|'].intercalate (s.assignments.map ConstantNode.text) := by
    intro s
    refine notMem_intercalate (by decide) fun x hx => ?_
    obtain ⟨v, -, rfl⟩ := List.mem_map.mp hx
    exact notMem_text v (by decide) (by decide) (by decide)
  rw [bloomKey, bloomKey, append_cons_inj (hhash s) (hhash t),
    intercalate_inj (hvalues s) (hvalues t), intercalate_inj (hitems s) (hitems t), weakEq_iff,
    ← todoItems_eq_iff]
  refine and_congr ⟨text_injective h, fun he => by rw [he]⟩ ?_
  exact (List.map_injective_iff.mpr fun p q => todoText_inj.mp).eq_iff

end States

/-! ### The filter -/

/-- A Bloom filter: it may answer yes for a key it was never given, but never no
for one it was. -/
structure BloomFilter where
  Filter : Type
  empty : Filter
  add : Filter → List Char → Filter
  contains : Filter → List Char → Bool
  contains_add : ∀ f k, contains (add f k) k = true
  contains_mono : ∀ f k k', contains f k = true → contains (add f k') k = true

/-- A state of the problem: its fluents hold values of their types, and nothing is in
progress unless the problem is temporal. -/
structure State.OfProblem (ss : SearchSpace) (fluents : List ValueType) (s : State) : Prop where
  types : s.assignments.map ConstantNode.type = fluents
  classical : ¬ ss.isTemporal = true → s.todo = ∅ ∧ s.temporalNetwork = none

namespace BloomDedup

variable (B : BloomFilter) (ss : SearchSpace) (weakEquality : Bool)

/-- No filter is allocated where every state is compared by makespan. -/
def start : Option B.Filter :=
  if DedupPolicy.of ss weakEquality = .dominance then none else some B.empty

/-- `_BloomDedup.insert`, with its answer. -/
def insert (filter : Option B.Filter) (state : State) : Bool × Option B.Filter :=
  match filter with
  | none => (true, none)
  | some f =>
    if VisitedStates.rule ss weakEquality state ≠ some .equal then (true, some f)
    else if B.contains f (bloomKey state) then (false, some f)
    else (true, some (B.add f (bloomKey state)))

def ofStates (states : List State) : Option B.Filter :=
  states.foldl (fun f s => (insert B ss weakEquality f s).2) (start B ss weakEquality)

/-- The filter holds the key of a state it was not given. -/
def FalsePositive (states : List State) (state : State) : Prop :=
  (ofStates B ss weakEquality states).any (B.contains · (bloomKey state)) = true ∧
    ∀ t ∈ states, VisitedStates.rule ss weakEquality t = some .equal → bloomKey t ≠ bloomKey state

variable {B ss weakEquality} {fluents : List ValueType} {s t : State} {states : List State}

theorem sameRepresentation_iff (hs : s.OfProblem ss fluents) (ht : t.OfProblem ss fluents) :
    sameRepresentation ss s t = true ↔ bloomKey s = bloomKey t := by
  rw [bloomKey_eq_iff (hs.types.trans ht.types.symm)]
  unfold sameRepresentation
  split_ifs with htemp
  · rfl
  · obtain ⟨hsl, hsn⟩ := hs.classical htemp
    have htl := (ht.classical htemp).1
    simp [weakEq_iff, State.eq, hsl, htl, hsn]

theorem seen_insert {tn : DeltaSimpleTemporalNetwork} (v : VisitedStates) :
    (v.insert ss tn weakEquality s).seen =
      if VisitedStates.rule ss weakEquality s = some .equal ∧
        v.seen.any (sameRepresentation ss · s) = false then s :: v.seen else v.seen := by
  unfold VisitedStates.insert
  split
  · rename_i hrule
    simp [hrule]
  · rename_i hrule
    split_ifs with hany
    · simp_all
    · simp_all
    · simp_all
    · simp_all
  · rename_i hrule
    simp only [hrule]
    split_ifs <;> simp_all

/-- What is recorded by equality has the keys of the inserted states. -/
theorem seen_ofStates (tn : DeltaSimpleTemporalNetwork) (weakEquality : Bool)
    (hstates : ∀ t ∈ states, t.OfProblem ss fluents) :
    (∀ t ∈ (VisitedStates.ofStates ss tn weakEquality states).seen,
      t ∈ states ∧ VisitedStates.rule ss weakEquality t = some .equal) ∧
    ∀ t ∈ states, VisitedStates.rule ss weakEquality t = some .equal →
      ∃ u ∈ (VisitedStates.ofStates ss tn weakEquality states).seen, bloomKey u = bloomKey t := by
  induction states using List.reverseRecOn with
  | nil => exact ⟨fun t ht => absurd ht List.not_mem_nil, fun t ht => absurd ht List.not_mem_nil⟩
  | append_singleton states s ih =>
    obtain ⟨hseen, hkeys⟩ := ih fun t ht => hstates t (List.mem_append_left _ ht)
    have hlast : VisitedStates.ofStates ss tn weakEquality (states ++ [s]) =
        (VisitedStates.ofStates ss tn weakEquality states).insert ss tn weakEquality s := by
      rw [VisitedStates.ofStates, List.foldl_append]
      rfl
    rw [hlast, seen_insert]
    split_ifs with hnew
    · refine ⟨fun t ht => ?_, fun t ht hr => ?_⟩
      · rcases List.mem_cons.mp ht with rfl | ht
        · exact ⟨by simp, hnew.1⟩
        · exact ⟨List.mem_append_left _ (hseen t ht).1, (hseen t ht).2⟩
      · rcases List.mem_append.mp ht with ht | ht
        · obtain ⟨u, hu, hk⟩ := hkeys t ht hr
          exact ⟨u, List.mem_cons_of_mem s hu, hk⟩
        · exact ⟨s, List.mem_cons_self, by rw [List.mem_singleton.mp ht]⟩
    · refine ⟨fun t ht => ⟨List.mem_append_left _ (hseen t ht).1, (hseen t ht).2⟩, fun t ht hr => ?_⟩
      rcases List.mem_append.mp ht with ht | ht
      · exact hkeys t ht hr
      · obtain rfl := List.mem_singleton.mp ht
        have hany : (VisitedStates.ofStates ss tn weakEquality states).seen.any
            (sameRepresentation ss · t) = true := by simpa [hr] using hnew
        obtain ⟨u, hu, hsame⟩ := List.any_eq_true.mp hany
        have hu' := hstates u (List.mem_append_left _ (hseen u hu).1)
        exact ⟨u, hu, (sameRepresentation_iff hu' (hstates t (by simp))).mp hsame⟩

theorem isRedundant_iff {tn : DeltaSimpleTemporalNetwork}
    (hstates : ∀ t ∈ states, t.OfProblem ss fluents) (hs : s.OfProblem ss fluents)
    (hrule : VisitedStates.rule ss weakEquality s = some .equal) :
    VisitedStates.isRedundant ss tn weakEquality (.ofStates ss tn weakEquality states) s = true ↔
      ∃ t ∈ states, VisitedStates.rule ss weakEquality t = some .equal ∧ bloomKey t = bloomKey s := by
  obtain ⟨hseen, hkeys⟩ := seen_ofStates tn weakEquality hstates
  rw [VisitedStates.isRedundant, hrule]
  simp only [List.any_eq_true]
  constructor
  · rintro ⟨t, ht, hsame⟩
    have hmem := hseen t ht
    exact ⟨t, hmem.1, hmem.2, (sameRepresentation_iff (hstates t hmem.1) hs).mp hsame⟩
  · rintro ⟨t, ht, hr, hk⟩
    obtain ⟨u, hu, hku⟩ := hkeys t ht hr
    exact ⟨u, hu, (sameRepresentation_iff (hstates u (hseen u hu).1) hs).mpr (hku.trans hk)⟩

variable (B states) in
theorem contains_of_mem (hpolicy : DedupPolicy.of ss weakEquality ≠ .dominance) :
    ∃ f, ofStates B ss weakEquality states = some f ∧ ∀ t ∈ states,
      VisitedStates.rule ss weakEquality t = some .equal → B.contains f (bloomKey t) = true := by
  induction states using List.reverseRecOn with
  | nil => exact ⟨B.empty, if_neg hpolicy, by simp⟩
  | append_singleton states s ih =>
    obtain ⟨f, hf, hcontains⟩ := ih
    have hlast : ofStates B ss weakEquality (states ++ [s]) = (insert B ss weakEquality (some f) s).2 := by
      rw [ofStates, List.foldl_append, ← hf]
      rfl
    rw [hlast, insert]
    split_ifs with hrule hmem
    · refine ⟨f, rfl, fun t ht hr => ?_⟩
      rcases List.mem_append.mp ht with ht | ht
      · exact hcontains t ht hr
      · exact absurd (List.mem_singleton.mp ht ▸ hr) hrule
    · refine ⟨f, rfl, fun t ht hr => ?_⟩
      rcases List.mem_append.mp ht with ht | ht
      · exact hcontains t ht hr
      · exact List.mem_singleton.mp ht ▸ hmem
    · refine ⟨_, rfl, fun t ht hr => ?_⟩
      rcases List.mem_append.mp ht with ht | ht
      · exact B.contains_mono _ _ _ (hcontains t ht hr)
      · exact List.mem_singleton.mp ht ▸ B.contains_add _ _

end BloomDedup

/-! ### Keys of the states of a problem -/

/-- Runs of a typed search space stay within its problem. -/
theorem ofProblem_of_run [Callables] {ss : SearchSpace} {tn : DeltaSimpleTemporalNetwork} {b : Bool}
    {fluents : List ValueType} {n m : ℕ} {s₀ s : State} {as : List Action}
    (hss : ss.WellTyped fluents) (h₀ : ss.initial tn n = some s₀)
    (hr : Run ss tn b s₀ (initialCounter ss n) as s m) : s.OfProblem ss fluents := by
  refine ⟨?_, fun ht => ?_⟩
  · obtain ⟨c₀, ids₀, hc₀, href₀, -⟩ := refines_initial h₀
    obtain ⟨c, ids, hc, href, -⟩ := href₀.run (Config.wellFormed_initial hc₀) hr
    rw [href.assignments]
    exact Config.Reachable.types hss ⟨c₀, as, hc₀, hc⟩
  · have hclassical := (run_classical ht (classical_initial ht h₀).1 hr).1
    exact ⟨hclassical.idle, hclassical.untimed⟩

/-- Two states of the problem have one key only when they are weakly equal, and the two
ways of finding duplicates differ on false positives of the filter alone. -/
theorem bloomKey_injective (B : BloomFilter) (ss : SearchSpace) (tn : DeltaSimpleTemporalNetwork)
    (weakEquality : Bool) (fluents : List ValueType) :
    (∀ s t : State, s.OfProblem ss fluents → t.OfProblem ss fluents →
      (bloomKey s = bloomKey t ↔ s.weakEq t = true)) ∧
    ∀ (states : List State) (s : State), (∀ t ∈ states, t.OfProblem ss fluents) →
      s.OfProblem ss fluents → VisitedStates.rule ss weakEquality s = some .equal →
      ((BloomDedup.insert B ss weakEquality (BloomDedup.ofStates B ss weakEquality states) s).1 = false ↔
        VisitedStates.isRedundant ss tn weakEquality (.ofStates ss tn weakEquality states) s = true ∨
          BloomDedup.FalsePositive B ss weakEquality states s) := by
  refine ⟨fun s t hs ht => bloomKey_eq_iff (hs.types.trans ht.types.symm),
    fun states s hstates hs hrule => ?_⟩
  have hpolicy : DedupPolicy.of ss weakEquality ≠ .dominance := by
    intro hd
    rw [VisitedStates.rule, hd, DedupPolicy.rule] at hrule
    split_ifs at hrule <;> simp_all
  obtain ⟨f, hf, hcontains⟩ := BloomDedup.contains_of_mem B states hpolicy
  have hanswer : (BloomDedup.insert B ss weakEquality (some f) s).1 = false ↔
      B.contains f (bloomKey s) = true := by
    rw [BloomDedup.insert]
    simp only [hrule, ne_eq, not_true_eq_false, if_false]
    split_ifs <;> simp_all
  rw [BloomDedup.FalsePositive, hf, hanswer, BloomDedup.isRedundant_iff hstates hs hrule,
    Option.any_some]
  constructor
  · intro h
    by_cases hex : ∃ t ∈ states, VisitedStates.rule ss weakEquality t = some .equal ∧
        bloomKey t = bloomKey s
    · exact .inl hex
    · push Not at hex
      exact .inr ⟨h, hex⟩
  · rintro (⟨t, ht, hr, hk⟩ | ⟨h, -⟩)
    · exact hk ▸ hcontains t ht hr
    · exact h

/-- A filter without false positives. -/
def BloomFilter.exact : BloomFilter where
  Filter := List (List Char)
  empty := []
  add := fun f k => k :: f
  contains := fun f k => decide (k ∈ f)
  contains_add := fun f k => by simp
  contains_mono := fun f k k' h => by simp_all

section Race

attribute [local instance] Callables.empty

/-- Before anything starts. -/
def raceIdle : State := ⟨[.bool false, .bool false], some [], ∅, 0, 0, []⟩

/-- The same values, with the slow action in progress. -/
def raceOpen : State :=
  ⟨[.bool false, .bool false], some [], (∅ : AList _).insert ⟨1⟩ (1, 0), 0, 1, [(⟨1⟩, 0, 0)]⟩

/-- The slow action in progress as another instance. -/
def raceReopen : State :=
  ⟨[.bool false, .bool false], some [], (∅ : AList _).insert ⟨1⟩ (1, 3), 0, 4, [(⟨1⟩, 3, 0)]⟩

theorem race_ofProblem {s : State} (hs : s ∈ [raceIdle, raceOpen, raceReopen]) :
    s.OfProblem (race 1) [.bool, .bool] := by
  have htemporal : (race 1).isTemporal = true := by decide +kernel
  simp only [List.mem_cons, List.not_mem_nil, or_false] at hs
  rcases hs with rfl | rfl | rfl <;> exact ⟨rfl, fun h => absurd htemporal h⟩

theorem bloomKey_injective_race :
    bloomKey raceOpen ≠ bloomKey raceIdle ∧ bloomKey raceOpen = bloomKey raceReopen ∧
    (BloomDedup.insert .exact (race 1) true
      (BloomDedup.ofStates .exact (race 1) true [raceIdle]) raceOpen).1 = true ∧
    (BloomDedup.insert .exact (race 1) true
      (BloomDedup.ofStates .exact (race 1) true [raceIdle, raceOpen]) raceReopen).1 = false := by
  obtain ⟨hkeys, hdedup⟩ := bloomKey_injective .exact (race 1) .free true [.bool, .bool]
  have hidle : raceIdle.OfProblem (race 1) [.bool, .bool] := race_ofProblem (by simp)
  have hopen : raceOpen.OfProblem (race 1) [.bool, .bool] := race_ofProblem (by simp)
  have hreopen : raceReopen.OfProblem (race 1) [.bool, .bool] := race_ofProblem (by simp)
  have hne : bloomKey raceOpen ≠ bloomKey raceIdle := by
    intro h
    exact absurd ((hkeys raceOpen raceIdle hopen hidle).mp h) (by decide +kernel)
  have heq := (hkeys raceOpen raceReopen hopen hreopen).mpr (by decide +kernel)
  have hseen : ∀ t ∈ [raceIdle, raceOpen], t.OfProblem (race 1) [.bool, .bool] := by
    intro t ht
    exact race_ofProblem (List.mem_append_left [raceReopen] ht)
  refine ⟨hne, heq, ?_, ?_⟩
  · rw [← Bool.not_eq_false]
    intro h
    have hfirst : ∀ t ∈ [raceIdle], t.OfProblem (race 1) [.bool, .bool] := by
      intro t ht
      exact hseen t (List.mem_append_left [raceOpen] ht)
    rcases (hdedup [raceIdle] raceOpen hfirst hopen rfl).mp h with hredundant | hfalse
    · exact absurd hredundant (by decide +kernel)
    · exact absurd hfalse.1 (by decide +kernel)
  · exact (hdedup [raceIdle, raceOpen] raceReopen hseen hreopen rfl).mpr (.inl rfl)

end Race

end TamerLite
