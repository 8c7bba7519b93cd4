import TamerLite.CompressionSafety

/-! The intervals of an action's conditions, as opened and closed by events: an
interval that does not turn round is opened first. -/

namespace TamerLite

/-! ### Events that close what earlier ones opened -/

/-- Each event closes only what the earlier ones have opened and left open. -/
def NestedEvents (le : List (Timing × Event)) : Prop :=
  ∀ k, closed (le.take (k + 1)) ≤ opened (le.take k)

section

variable {le : List (Timing × Event)} {k : ℕ} {te : Timing × Event}

theorem opened_take_succ (hte : le[k]? = some te) :
    opened (le.take (k + 1)) = opened (le.take k) + Multiset.ofList te.2.startConditions := by
  simp [opened, List.take_add_one, hte]

theorem closed_take_succ (hte : le[k]? = some te) :
    closed (le.take (k + 1)) = closed (le.take k) + Multiset.ofList te.2.endConditions := by
  simp [closed, List.take_add_one, hte]

/-- The account is exact, as nothing is closed that is not open. -/
theorem NestedEvents.openAt_add_closed (h : NestedEvents le) (k : ℕ) :
    openAt le k + closed (le.take k) = opened (le.take k) := by
  induction k with
  | zero => rfl
  | succ k ih =>
    cases hte : le[k]? with
    | none =>
      have hlen := List.getElem?_eq_none_iff.mp hte
      rw [openAt, hte, List.take_of_length_le (by omega)]
      rwa [List.take_of_length_le hlen] at ih
    | some te =>
      have hk := h k
      rw [closed_take_succ hte, ← ih, add_comm] at hk
      have hle := le_of_add_le_add_right hk
      rw [openAt_succ hte, opened_take_succ hte, closed_take_succ hte, ← ih]
      have hcancel := tsub_add_cancel_of_le hle
      calc openAt le k - Multiset.ofList te.2.endConditions +
            Multiset.ofList te.2.startConditions +
            (closed (le.take k) + Multiset.ofList te.2.endConditions)
          = (openAt le k - Multiset.ofList te.2.endConditions +
              Multiset.ofList te.2.endConditions) + closed (le.take k) +
              Multiset.ofList te.2.startConditions := by
            generalize openAt le k - Multiset.ofList te.2.endConditions = m
            abel
        _ = openAt le k + closed (le.take k) + Multiset.ofList te.2.startConditions := by
            rw [hcancel]

theorem NestedEvents.ends_le (h : NestedEvents le) (hte : le[k]? = some te) :
    Multiset.ofList te.2.endConditions ≤ openAt le k := by
  have hk := h k
  rw [closed_take_succ hte, ← h.openAt_add_closed, add_comm] at hk
  exact le_of_add_le_add_right hk

theorem NestedEvents.closed_le (h : NestedEvents le) (k : ℕ) :
    closed (le.take k) ≤ opened (le.take k) := by
  rw [← h.openAt_add_closed]
  exact le_add_of_nonneg_left (Multiset.zero_le _)

theorem NestedEvents.first (h : NestedEvents le) (hte : le[0]? = some te) :
    te.2.endConditions = [] := by
  have h0 := h.ends_le hte
  rw [openAt, Multiset.le_zero, Multiset.coe_eq_zero] at h0
  exact h0

end

/-! ### Collected from timings -/

/-- What the entries at a timing in `f` ask for. -/
def collected (f : UPTiming → Bool) (g : Contents → List FNode) (l : List (UPTiming × Contents)) :
    Multiset FNode :=
  (l.map fun p => if f p.1 then (g p.2 : Multiset FNode) else 0).sum

section

variable {conj : List FNode → FNode} {f : UPTiming → Bool} {g : Contents → List FNode}

theorem collected_append (l l' : List (UPTiming × Contents)) :
    collected f g (l ++ l') = collected f g l + collected f g l' := by
  simp [collected]

theorem collected_flatMap {α : Type*} (l : List α) (F : α → List (UPTiming × Contents)) :
    collected f g (l.flatMap F) = (l.map fun x => collected f g (F x)).sum := by
  induction l with
  | nil => rfl
  | cons x l ih => rw [List.flatMap_cons, collected_append, ih, List.map_cons, List.sum_cons]

theorem collected_add (f' : UPTiming → Bool) (l : List (UPTiming × Contents))
    (h : ∀ p ∈ l, f p.1 = true → f' p.1 = false) :
    collected f g l + collected f' g l = collected (fun t => f t || f' t) g l := by
  induction l with
  | nil => rfl
  | cons p l ih =>
    have hl := ih fun q hq => h q (List.mem_cons_of_mem _ hq)
    have hp := h p List.mem_cons_self
    simp only [collected, List.map_cons, List.sum_cons] at hl ⊢
    rw [← hl]
    by_cases hf : f p.1 = true
    · simp only [hf, hp hf, Bool.true_or, Bool.false_eq_true, if_true, if_false]
      abel
    · rw [Bool.not_eq_true] at hf
      simp only [hf, Bool.false_or, Bool.false_eq_true, if_false]
      abel

theorem collected_filter (f' : UPTiming → Bool) (l : List (UPTiming × Contents)) :
    collected f g (l.filter fun p => f' p.1) = collected (fun t => f' t && f t) g l := by
  induction l with
  | nil => rfl
  | cons p l ih =>
    simp only [collected] at ih
    cases hf : f' p.1 <;> simp [collected, hf, ih]

theorem collected_effects {l : List (UPTiming × List UPEffect)}
    (h : ∀ e, g { effects := e } = []) :
    collected f g (l.map fun p => (p.1, { effects := p.2 })) = 0 := by
  refine List.sum_eq_zero fun x hx => ?_
  simp only [List.map_map, List.mem_map, Function.comp_apply, h] at hx
  obtain ⟨p, -, rfl⟩ := hx
  simp

theorem gathered_keyed (f : ℚ → Bool) (l : List (UPTiming × Contents)) :
    Buckets.gathered f g (DurativeAction.keyed l) = collected (fun t => f t.delay) g l := by
  simp [Buckets.gathered, collected, DurativeAction.keyed, Function.comp_def]

end

/-- An interval that is kept and lasts, rather than being a point. -/
def TimeInterval.lasts (i : TimeInterval) : Bool := !i.isEmpty && i.lower ≠ i.upper

theorem collected_endConditions (f : UPTiming → Bool) (p : TimeInterval × List FNode) :
    collected f Contents.endConditions (conditionEvents conj p) =
      if p.1.lasts && f p.1.upper then {conj p.2} else 0 := by
  cases he : p.1.isEmpty with
  | true => simp [conditionEvents, he, collected, TimeInterval.lasts]
  | false =>
    by_cases hlu : p.1.lower = p.1.upper
    · simp [conditionEvents, he, collected, TimeInterval.lasts, hlu]
    · simp only [conditionEvents, he, if_neg hlu, collected, TimeInterval.lasts]
      split_ifs <;> simp_all

theorem collected_startConditions (f : UPTiming → Bool) (p : TimeInterval × List FNode) :
    collected f Contents.startConditions (conditionEvents conj p) =
      if p.1.lasts && f p.1.lower then {conj p.2} else 0 := by
  cases he : p.1.isEmpty with
  | true => simp [conditionEvents, he, collected, TimeInterval.lasts]
  | false =>
    by_cases hlu : p.1.lower = p.1.upper
    · simp [conditionEvents, he, collected, TimeInterval.lasts, hlu]
    · simp only [conditionEvents, he, if_neg hlu, collected, TimeInterval.lasts]
      split_ifs <;> simp_all

/-! ### Durative actions -/

namespace DurativeAction

variable (conj : List FNode → FNode)

/-- The side and the delay of the event a timing belongs to. -/
def instant (a : DurativeAction) (t : UPTiming) : Bool × ℚ :=
  match a.foldedBy conj with
  | some q => (true, if t.isFromStart then t.delay else q + t.delay)
  | none => (t.isFromStart, t.delay)

/-- The event of `t` comes before that of `t'`. -/
def before (a : DurativeAction) (t t' : UPTiming) : Bool :=
  ((a.instant conj t).1 && !(a.instant conj t').1) ||
    ((a.instant conj t).1 = (a.instant conj t').1 && (a.instant conj t).2 < (a.instant conj t').2)

/-- Every interval condition is opened by an event before the one that closes it. -/
def OpensFirst (a : DurativeAction) : Prop :=
  ∀ p ∈ a.conditions, p.1.lasts = true → a.before conj p.1.lower p.1.upper = true

instance (a : DurativeAction) : Decidable (a.OpensFirst conj) := by unfold OpensFirst; infer_instance

variable {conj} {a : DurativeAction} {f f' : UPTiming → Bool} {g : Contents → List FNode}
  {t t' : UPTiming}

theorem before_iff (h : a.foldedBy conj = none) : a.before conj t t' = true ↔
    t.isFromStart = true ∧ t'.isFromStart = false ∨
      t.isFromStart = t'.isFromStart ∧ t.delay < t'.delay := by
  simp [before, instant, h]

theorem before_iff_folded {q : ℚ} (h : a.foldedBy conj = some q) : a.before conj t t' = true ↔
    (if t.isFromStart then t.delay else q + t.delay) <
      if t'.isFromStart then t'.delay else q + t'.delay := by
  simp [before, instant, h]

/-- What is closed at `f` was opened at `f'`, if each interval closed there is. -/
theorem collected_le (h : ∀ p ∈ a.conditions, p.1.lasts = true → f p.1.upper = true →
    f' p.1.lower = true) :
    collected f Contents.endConditions (a.actionEvents conj) ≤
      collected f' Contents.startConditions (a.actionEvents conj) := by
  rw [actionEvents, collected_append, collected_append, collected_effects fun e => rfl,
    collected_effects fun e => rfl, add_zero, add_zero, collected_flatMap, collected_flatMap]
  refine List.sum_le_sum fun p hp => ?_
  rw [collected_endConditions, collected_startConditions]
  by_cases hu : (p.1.lasts && f p.1.upper) = true
  · rw [if_pos hu]
    simp only [Bool.and_eq_true] at hu
    rw [if_pos (by simp [hu.1, h p hp hu.1 hu.2])]
  · rw [if_neg hu]
    exact Multiset.zero_le _

theorem gather_fromStart (hg : ∀ x y, g (x.append y) = g x ++ g y) (f : ℚ → Bool) :
    Buckets.gather f g (a.fromStart conj) =
      collected (fun t => t.isFromStart && f t.delay) g (a.actionEvents conj) := by
  rw [fromStart, Buckets.gather_foldl hg, gathered_keyed, collected_filter]
  exact zero_add _

theorem gather_fromEnd (hg : ∀ x y, g (x.append y) = g x ++ g y) (f : ℚ → Bool) :
    Buckets.gather f g (a.fromEnd conj) =
      collected (fun t => !t.isFromStart && f t.delay) g (a.actionEvents conj) := by
  rw [fromEnd, Buckets.gather_foldl hg, gathered_keyed, collected_filter (fun t => !t.isFromStart)]
  exact zero_add _

theorem gather_folded (hg : ∀ x y, g (x.append y) = g x ++ g y) (q : ℚ) (f : ℚ → Bool) :
    Buckets.gather f g ((foldedEnd q (a.fromEnd conj)).foldl addToBucket (a.fromStart conj)) =
      collected (fun t => f (if t.isFromStart then t.delay else q + t.delay)) g (a.actionEvents conj) := by
  have hend : Buckets.gathered f g (foldedEnd q (a.fromEnd conj)) =
      Buckets.gather (fun x => f (q + x)) g (a.fromEnd conj) := by
    simp [Buckets.gathered, Buckets.gather, foldedEnd, Function.comp_def]
  rw [Buckets.gather_foldl hg, hend, gather_fromStart hg, gather_fromEnd hg,
    collected_add _ _ fun p _ hp => by simp_all]
  congr 1
  funext t
  cases t.isFromStart <;> simp

end DurativeAction

/-! ### Lists of buckets -/

/-- What a list of buckets asks for, all together. -/
def contentsOf (g : Contents → List FNode) (bs : List (UPTiming × Contents)) : Multiset FNode :=
  (bs.map fun b => (g b.2 : Multiset FNode)).sum

/-- Each bucket closes only what earlier ones open. -/
def NestedBuckets (bs : List (UPTiming × Contents)) : Prop :=
  ∀ k < bs.length, contentsOf Contents.endConditions (bs.take (k + 1)) ≤
    contentsOf Contents.startConditions (bs.take k)

section

variable {g : Contents → List FNode} {b : Buckets}

theorem contentsOf_append (bs bs' : List (UPTiming × Contents)) :
    contentsOf g (bs ++ bs') = contentsOf g bs + contentsOf g bs' := by
  simp [contentsOf]

theorem contentsOf_take (n : ℕ) : contentsOf g ((sortBuckets b).take n) =
    ((b.sorted.take n).map fun p => (g p.2.2 : Multiset FNode)).sum := by
  rw [contentsOf, sortBuckets, ← List.map_take, List.map_map]
  rfl

theorem contentsOf_sortBuckets :
    contentsOf g (sortBuckets b) = Buckets.gather (fun _ => true) g b := by
  rw [← Buckets.sum_sorted, contentsOf, sortBuckets, List.map_map]
  rfl

/-- Buckets laid out by delay, if nothing is closed at a delay that was not
opened at a smaller one. -/
theorem nestedBuckets_sorted {bs : List (UPTiming × Contents)} (hbs : NestedBuckets bs)
    (h : ∀ d, contentsOf Contents.endConditions bs + Buckets.gather (· ≤ d) Contents.endConditions b ≤
      contentsOf Contents.startConditions bs + Buckets.gather (· < d) Contents.startConditions b) :
    NestedBuckets (bs ++ sortBuckets b) := by
  intro k hk
  rcases Nat.lt_or_ge k bs.length with hlt | hge
  · rw [List.take_append_of_le_length (by omega), List.take_append_of_le_length (by omega)]
    exact hbs k hlt
  · have hlen : (sortBuckets b).length = b.sorted.length := List.length_map _
    rw [List.length_append, hlen] at hk
    have hq := List.getElem?_eq_getElem (show k - bs.length < b.sorted.length by omega)
    rw [List.take_append, List.take_append, List.take_of_length_le (by omega),
      List.take_of_length_le hge, contentsOf_append, contentsOf_append, contentsOf_take,
      contentsOf_take, show k + 1 - bs.length = k - bs.length + 1 by omega,
      Buckets.sum_before_sorted hq, Buckets.sum_upto_sorted hq]
    exact h _

theorem nestedBuckets_sortBuckets (h : ∀ d, Buckets.gather (· ≤ d) Contents.endConditions b ≤
    Buckets.gather (· < d) Contents.startConditions b) : NestedBuckets (sortBuckets b) := by
  rw [← List.nil_append (sortBuckets b)]
  exact nestedBuckets_sorted (fun k hk => absurd hk (Nat.not_lt_zero k)) fun d =>
    add_le_add le_rfl (h d)

end

/-- Where every interval is opened first, so is what each event closes. -/
theorem DurativeAction.nestedBuckets {conj : List FNode → FNode} {a : DurativeAction}
    {bs : List (UPTiming × Contents)} (h : a.OpensFirst conj) (hbs : a.orderedBuckets conj = some bs) :
    NestedBuckets bs := by
  obtain ⟨start, stop, hcase, -, rfl⟩ := orderedBuckets_cases hbs
  have hends : ∀ x y : Contents, (x.append y).endConditions = x.endConditions ++ y.endConditions :=
    fun _ _ => rfl
  have hstarts : ∀ x y : Contents,
      (x.append y).startConditions = x.startConditions ++ y.startConditions := fun _ _ => rfl
  rcases hcase with ⟨hfold, rfl, rfl⟩ | ⟨q, hfold, rfl, rfl⟩
  · refine nestedBuckets_sorted (nestedBuckets_sortBuckets fun d => ?_) fun d => ?_
    · rw [Buckets.gather_withStart rfl, Buckets.gather_withStart rfl, gather_fromStart hends,
        gather_fromStart hstarts]
      refine collected_le fun p hp hl hu => ?_
      simp only [Bool.and_eq_true, decide_eq_true_eq] at hu ⊢
      rcases (before_iff hfold).mp (h p hp hl) with ⟨-, hb⟩ | ⟨hs, hb⟩
      · rw [hu.1] at hb
        contradiction
      · exact ⟨hs.trans hu.1, hb.trans_le hu.2⟩
    · rw [contentsOf_sortBuckets, contentsOf_sortBuckets,
        Buckets.gather_withStart rfl, Buckets.gather_withStart rfl, gather_fromStart hends,
        gather_fromStart hstarts, gather_fromEnd hends, gather_fromEnd hstarts,
        collected_add _ _ fun p _ hp => by simp_all, collected_add _ _ fun p _ hp => by simp_all]
      refine collected_le fun p hp hl hu => ?_
      simp only [Bool.and_true, Bool.or_eq_true, Bool.and_eq_true, Bool.not_eq_true',
        decide_eq_true_eq] at hu ⊢
      rcases (before_iff hfold).mp (h p hp hl) with ⟨hb, -⟩ | ⟨hs, hb⟩
      · exact .inl hb
      · rcases hu with hu | ⟨hu, hd⟩
        · exact .inl (hs.trans hu)
        · exact .inr ⟨hs.trans hu, hb.trans_le hd⟩
  · have hempty : sortBuckets ∅ = [] := rfl
    rw [hempty, List.append_nil]
    refine nestedBuckets_sortBuckets fun d => ?_
    rw [Buckets.gather_withStart rfl, Buckets.gather_withStart rfl, gather_folded hends,
      gather_folded hstarts]
    refine collected_le fun p hp hl hu => ?_
    rw [decide_eq_true_eq] at hu ⊢
    exact ((before_iff_folded hfold).mp (h p hp hl)).trans_le hu

/-! ### The events of the buckets -/

theorem mapM_eq_some {α β : Type*} {f : α → Option β} {l : List α} {l' : List β} (d : β)
    (h : l.mapM f = some l') : l' = l.map (fun x => (f x).getD d) ∧ ∀ x ∈ l, (f x).isSome := by
  induction l generalizing l' with
  | nil => exact ⟨(Option.some.inj h).symm, by simp⟩
  | cons x l ih =>
    simp only [List.mapM_cons, Option.bind_eq_bind, Option.bind_eq_some_iff] at h
    obtain ⟨y, hy, ys, hys, h⟩ := h
    obtain rfl := Option.some.inj h
    obtain ⟨rfl, hl⟩ := ih hys
    simp [hy]
    exact hl

namespace Encoder

variable {E : Encoder} {a : Action} {le : List (Timing × Event)} {bs : List (UPTiming × Contents)}

/-- The conversion of an expression that converts. -/
def converted (E : Encoder) (e : FNode) : Expression := (E.convertExpression e).getD []

theorem mapM_converted {es : List FNode} {xs : List Expression}
    (h : es.mapM E.convertExpression = some xs) : xs = es.map E.converted :=
  (mapM_eq_some [] h).1

/-- The conditions of the first events are those of the first buckets. -/
theorem flatMap_take (h : E.eventsFromBuckets a bs = some le) {g : Contents → List FNode}
    {g' : Event → List Expression} (hg : ∀ k b te, E.convertBucket a k b = some te →
      (g b.2).mapM E.convertExpression = some (g' te.2)) (n : ℕ) :
    Multiset.ofList ((le.take n).flatMap fun te => g' te.2) =
      (contentsOf g (bs.take n)).map E.converted := by
  obtain ⟨hlen, hget⟩ := eventsFromBuckets_getElem h
  induction n with
  | zero => rfl
  | succ n ih =>
    cases hte : le[n]? with
    | none =>
      have hn := List.getElem?_eq_none_iff.mp hte
      rw [List.take_of_length_le (by omega), List.take_of_length_le (by omega)]
      rwa [List.take_of_length_le (by omega), List.take_of_length_le (by omega)] at ih
    | some te =>
      obtain ⟨b, hb, hconv⟩ := hget hte
      have hmap := mapM_converted (hg n b te hconv)
      simp only [List.take_add_one, hte, hb, Option.toList_some, List.flatMap_append,
        contentsOf_append, Multiset.map_add, ← ih]
      simp [contentsOf, hmap]

theorem opened_take (h : E.eventsFromBuckets a bs = some le) (n : ℕ) :
    opened (le.take n) = (contentsOf Contents.startConditions (bs.take n)).map E.converted :=
  flatMap_take h (fun _ _ _ hc => (convertBucket_eq_some hc).2.1) n

theorem closed_take (h : E.eventsFromBuckets a bs = some le) (n : ℕ) :
    closed (le.take n) = (contentsOf Contents.endConditions (bs.take n)).map E.converted :=
  flatMap_take h (fun _ _ _ hc => (convertBucket_eq_some hc).2.2) n

theorem nestedEvents (h : E.eventsFromBuckets a bs = some le) (hbs : NestedBuckets bs) :
    NestedEvents le := by
  have hlt : ∀ k < bs.length, closed (le.take (k + 1)) ≤ opened (le.take k) := by
    intro k hk
    rw [opened_take h, closed_take h]
    exact Multiset.map_le_map (hbs k hk)
  have hlen := (eventsFromBuckets_getElem h).1
  intro k
  rcases Nat.lt_or_ge k bs.length with hk | hk
  · exact hlt k hk
  · rw [List.take_of_length_le (by omega), List.take_of_length_le (by omega)]
    cases hn : le.length with
    | zero =>
      obtain rfl := List.length_eq_zero_iff.mp hn
      exact le_rfl
    | succ n =>
      have hclosed := hlt n (by omega)
      rw [List.take_of_length_le (by omega)] at hclosed
      refine hclosed.trans ?_
      have hle : opened (le.take n) ≤ opened (le.take n) + opened (le.drop n) :=
        le_add_of_nonneg_right (Multiset.zero_le _)
      rwa [opened, opened, Multiset.coe_add, ← List.flatMap_append, List.take_append_drop] at hle

end Encoder

end TamerLite
