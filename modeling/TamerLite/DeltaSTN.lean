import Mathlib.Algebra.Order.Archimedean.Basic
import Mathlib.Algebra.Order.BigOperators.Group.Finset
import TamerLite.SearchSpace

/-! The incremental temporal network: each inserted constraint lowers the
distances it has to, by a queue of nodes whose outgoing edges are to be seen
again. -/

namespace TamerLite

open Difference

variable {T : Type*} [DecidableEq T]

abbrev Distances (T : Type*) := T → Option ℚ

/-- The distance of a node; nodes are inserted with distance 0. -/
def Distances.at (d : Distances T) (v : T) : ℚ := (d v).getD 0

/-- The neighbours of a node are the edges out of it, latest first. -/
structure DeltaSTN (T : Type*) where
  constraints : T → List (T × ℚ)
  distances : Distances T
  isSat : Bool
  tolerance : ℚ

namespace DeltaSTN

def new (tolerance : ℚ) : DeltaSTN T := ⟨fun _ => [], fun _ => none, true, tolerance⟩

def check (s : DeltaSTN T) : Bool := s.isSat

def getModelValue (s : DeltaSTN T) (x : T) : Option ℚ := (s.distances x).map (· * -1)

def insertNode (s : DeltaSTN T) (x : T) : DeltaSTN T :=
  if (s.distances x).isSome then s
  else { s with
    distances := Function.update s.distances x (some 0)
    constraints := Function.update s.constraints x [] }

/-- Only the latest edge to `y` is looked at. -/
def isSubsumed (s : DeltaSTN T) (x y : T) (b : ℚ) : Bool :=
  match (s.constraints x).find? fun n => n.1 = y with
  | some n => n.2 ≤ b + s.tolerance
  | none => false

def equalsWithTolerance (tolerance b1 b2 : ℚ) : Bool :=
  b1 - b2 ≤ tolerance && -tolerance ≤ b1 - b2

/-- The edges out of `c`, one after another. The flag is false when one of them
closes a cycle over the inserted edge to `y` with bound `b`. -/
def scan (tolerance : ℚ) (y : T) (b : ℚ) (c : T) :
    List (T × ℚ) → Distances T → List T → Bool × Distances T × List T
  | [], d, q => (true, d, q)
  | n :: ns, d, q =>
    let val := d.at c + n.2
    if val < d.at n.1 - tolerance then
      if n.1 = y ∧ equalsWithTolerance tolerance n.2 b then (false, d, q)
      else scan tolerance y b c ns (Function.update d n.1 (some val)) (q ++ [n.1])
    else scan tolerance y b c ns d q

/-- The loop over the queue, or `none` if `fuel` nodes are not enough. -/
def propagate (tolerance : ℚ) (constraints : T → List (T × ℚ)) (y : T) (b : ℚ) :
    ℕ → Distances T → List T → Option (Bool × Distances T)
  | _, d, [] => some (true, d)
  | 0, _, _ :: _ => none
  | fuel + 1, d, c :: q =>
    match scan tolerance y b c (constraints c) d q with
    | (false, d, _) => some (false, d)
    | (true, d, q) => propagate tolerance constraints y b fuel d q

def incCheck (fuel : ℕ) (s : DeltaSTN T) (x y : T) (b : ℚ) : Option (Bool × Distances T) :=
  if s.distances.at x + b < s.distances.at y - s.tolerance then
    propagate s.tolerance s.constraints y b fuel
      (Function.update s.distances y (some (s.distances.at x + b))) [y]
  else some (true, s.distances)

def addEdge (s : DeltaSTN T) (x y : T) (b : ℚ) : DeltaSTN T :=
  if s.isSubsumed x y b then s
  else { s with constraints := Function.update s.constraints x ((y, b) :: s.constraints x) }

def add (fuel : ℕ) (s : DeltaSTN T) (x y : T) (b : ℚ) : Option (DeltaSTN T) :=
  if s.isSat then
    let s := ((s.insertNode x).insertNode y).addEdge x y b
    (s.incCheck fuel x y b).map fun r => { s with isSat := r.1, distances := r.2 }
  else some s

/-- The network after the insertions `cs`, in order. -/
def addAll (fuel : ℕ) (s : DeltaSTN T) (cs : List (Constraint T ℚ)) : Option (DeltaSTN T) :=
  cs.foldlM (fun s c => s.add fuel c.x c.y c.b) s

example : ((new 0).addAll 9 [⟨0, 1, -2⟩, ⟨1, 2, -3⟩, ⟨2, 0, 4⟩]).map check = some false := by
  decide +kernel

/-! ### Propagation -/

variable {constraints : T → List (T × ℚ)} {D : Distances T} {x y c : T} {b : ℚ} {N : ℕ}
  {nodes : Finset T} {d d' : Distances T} {q q' : List T} {ns : List (T × ℚ)}

theorem at_update (u : T) (r : ℚ) :
    Distances.at (Function.update d u (some r)) = Function.update d.at u r := by
  funext v
  by_cases hv : v = u
  · simp [hv, Distances.at]
  · simp [hv, Distances.at]

def SolvesEdges (constraints : T → List (T × ℚ)) (τ : T → ℚ) : Prop :=
  ∀ u, ∀ n ∈ constraints u, τ u - τ n.1 ≤ n.2

/-- Every bound is a multiple of `1 / N`. -/
def EdgesOnGrid (constraints : T → List (T × ℚ)) (N : ℕ) : Prop :=
  ∀ u, ∀ n ∈ constraints u, ∃ z : ℤ, (N : ℚ) * n.2 = z

/-- What an insertion starts from: the distances `D` respect every edge but the
inserted one. -/
structure Inserting (constraints : T → List (T × ℚ)) (D : Distances T) (x y : T) (b : ℚ) (N : ℕ)
    (nodes : Finset T) : Prop where
  old : ∀ u, ∀ n ∈ constraints u, D.at n.1 ≤ D.at u + n.2 ∨ u = x ∧ n = (y, b)
  scale : 0 < N
  grid : EdgesOnGrid constraints N
  closed : ∀ u, ∀ n ∈ constraints u, n.1 ∈ nodes

/-- What holds of the distances while the nodes of `q` are to be seen again. No
node has been lowered by more than the target of the inserted edge was. -/
structure Propagating (constraints : T → List (T × ℚ)) (D : Distances T) (x y : T) (b : ℚ)
    (d : Distances T) (q : List T) : Prop where
  lower : ∀ v, D.at v - (D.at y - (D.at x + b)) ≤ d.at v
  upper : ∀ v, d.at v ≤ D.at v
  target : d.at y = D.at x + b
  reached : ∀ v ∈ q, ∀ τ, SolvesEdges constraints τ → τ y - τ v ≤ d.at v - d.at y
  least : ∀ τ, SolvesEdges constraints τ → (∀ v, 0 ≤ τ v) → ∀ v, -τ v ≤ d.at v
  grid : ∀ M, EdgesOnGrid constraints M → ∀ v, ∃ z : ℤ, (M : ℚ) * d.at v = z
  known : ∀ v, (D v).isSome → (d v).isSome

/-- Each edge is respected, unless it leaves a node of `q` or is one of `ns`,
which leave `c`. -/
def Settled (constraints : T → List (T × ℚ)) (d : Distances T) (q : List T) (c : T)
    (ns : List (T × ℚ)) : Prop :=
  ∀ u, u ∉ q → ∀ n ∈ constraints u, u = c ∧ n ∈ ns ∨ d.at n.1 ≤ d.at u + n.2

omit [DecidableEq T] in
/-- The target is only lowered again over the inserted edge, and then there is
a cycle no assignment respects. -/
theorem Propagating.cycle {n : T × ℚ} (hin : Inserting constraints D x y b N nodes)
    (h : Propagating constraints D x y b d (c :: q)) (hn : n ∈ constraints c)
    (hlt : d.at c + n.2 < d.at n.1) (hy : n.1 = y) :
    n.2 = b ∧ ¬ ∃ τ, SolvesEdges constraints τ := by
  rw [hy] at hlt
  constructor
  · rcases hin.old c n hn with hold | hnew
    · have hlow := h.lower c
      have htarget := h.target
      rw [hy] at hold
      linarith
    · rw [hnew.2]
  · intro hτ
    obtain ⟨τ, hτ⟩ := hτ
    have hreach := h.reached c List.mem_cons_self τ hτ
    have hedge := hτ c n hn
    rw [hy] at hedge
    linarith

/-- Lowering another node keeps the invariant. -/
theorem Propagating.relax {n : T × ℚ} (hin : Inserting constraints D x y b N nodes)
    (h : Propagating constraints D x y b d (c :: q)) (hn : n ∈ constraints c)
    (hlt : d.at c + n.2 < d.at n.1) (hy : n.1 ≠ y) :
    Propagating constraints D x y b (Function.update d n.1 (some (d.at c + n.2)))
      (c :: (q ++ [n.1])) := by
  have hold : D.at n.1 ≤ D.at c + n.2 := by
    rcases hin.old c n hn with hold | hnew
    · exact hold
    · exact absurd (congrArg Prod.fst hnew.2) hy
  have htarget : Distances.at (Function.update d n.1 (some (d.at c + n.2))) y = d.at y := by
    rw [at_update, Function.update_of_ne hy.symm]
  have hle : ∀ v, Distances.at (Function.update d n.1 (some (d.at c + n.2))) v ≤ d.at v := by
    intro v
    rw [at_update]
    by_cases hv : v = n.1
    · rw [hv, Function.update_self]
      exact hlt.le
    · rw [Function.update_of_ne hv]
  refine ⟨fun v => ?_, fun v => (hle v).trans (h.upper v), htarget.trans h.target,
    fun v hv τ hτ => ?_, fun τ hτ h0 v => ?_, fun M hM v => ?_, fun v hv => ?_⟩
  · rw [at_update]
    by_cases hv : v = n.1
    · rw [hv, Function.update_self]
      have hlow := h.lower c
      linarith
    · rw [Function.update_of_ne hv]
      exact h.lower v
  · rw [htarget, at_update]
    by_cases hvn : v = n.1
    · rw [hvn, Function.update_self]
      have hreach := h.reached c List.mem_cons_self τ hτ
      have hedge := hτ c n hn
      linarith
    · rw [Function.update_of_ne hvn]
      refine h.reached v ?_ τ hτ
      simp only [List.mem_cons, List.mem_append, List.not_mem_nil, or_false, hvn] at hv
      exact List.mem_cons.mpr hv
  · rw [at_update]
    by_cases hv : v = n.1
    · rw [hv, Function.update_self]
      have hc := h.least τ hτ h0 c
      have hedge := hτ c n hn
      linarith
    · rw [Function.update_of_ne hv]
      exact h.least τ hτ h0 v
  · rw [at_update]
    by_cases hv : v = n.1
    · rw [hv, Function.update_self]
      obtain ⟨z, hz⟩ := h.grid M hM c
      obtain ⟨k, hk⟩ := hM c n hn
      exact ⟨z + k, by push_cast; rw [mul_add, hz, hk]⟩
    · rw [Function.update_of_ne hv]
      exact h.grid M hM v
  · by_cases hvn : v = n.1
    · rw [hvn, Function.update_self]
      rfl
    · rw [Function.update_of_ne hvn]
      exact h.known v hv

theorem Settled.relax {n : T × ℚ} (h : Settled constraints d q c (n :: ns))
    (hlt : d.at c + n.2 < d.at n.1) :
    Settled constraints (Function.update d n.1 (some (d.at c + n.2))) (q ++ [n.1]) c ns := by
  intro u hu m hm
  rw [List.mem_append, List.mem_singleton, not_or] at hu
  have hle : Distances.at (Function.update d n.1 (some (d.at c + n.2))) m.1 ≤ d.at m.1 := by
    rw [at_update]
    by_cases hv : m.1 = n.1
    · rw [hv, Function.update_self]
      exact hlt.le
    · rw [Function.update_of_ne hv]
  have hself : Distances.at (Function.update d n.1 (some (d.at c + n.2))) u = d.at u := by
    rw [at_update, Function.update_of_ne hu.2]
  rw [hself]
  rcases h u hu.1 m hm with ⟨hc, hmem⟩ | hs
  · rcases List.mem_cons.mp hmem with rfl | hmem
    · refine .inr ?_
      rw [at_update, Function.update_self, hc]
    · exact .inl ⟨hc, hmem⟩
  · exact .inr (hle.trans hs)

/-- Lowering a node by at least one step of the grid pays for the queue entry. -/
theorem potential_relax {u : T} {r : ℚ} (hN : 0 < N) (hu : u ∈ nodes) (hlt : r < d.at u)
    (hr : ∃ z : ℤ, (N : ℚ) * r = z) (hd : ∃ z : ℤ, (N : ℚ) * d.at u = z) :
    N * ∑ v ∈ nodes, Distances.at (Function.update d u (some r)) v + 1 ≤
      N * ∑ v ∈ nodes, d.at v := by
  have hstep : (N : ℚ) * r + 1 ≤ N * d.at u := by
    obtain ⟨z, hz⟩ := hr
    obtain ⟨k, hk⟩ := hd
    have hlt' : (N : ℚ) * r < N * d.at u := mul_lt_mul_of_pos_left hlt (by exact_mod_cast hN)
    rw [hz, hk] at hlt' ⊢
    exact_mod_cast hlt'
  have hone : d.at u - r ≤
      ∑ v ∈ nodes, (d.at v - Distances.at (Function.update d u (some r)) v) := by
    have hnonneg : ∀ v ∈ nodes, 0 ≤ d.at v - Distances.at (Function.update d u (some r)) v := by
      intro v _
      rw [at_update]
      by_cases hv : v = u
      · rw [hv, Function.update_self]
        exact (sub_pos.mpr hlt).le
      · rw [Function.update_of_ne hv, sub_self]
    have hle := Finset.single_le_sum hnonneg hu
    rwa [at_update, Function.update_self, ← at_update] at hle
  rw [Finset.sum_sub_distrib] at hone
  have hmul := mul_le_mul_of_nonneg_left hone (Nat.cast_nonneg (α := ℚ) N)
  rw [mul_sub, mul_sub] at hmul
  linarith

theorem scan_spec (hin : Inserting constraints D x y b N nodes)
    (h : Propagating constraints D x y b d (c :: q)) (hs : Settled constraints d q c ns)
    (hns : ns ⊆ constraints c) {ok : Bool} (hr : scan 0 y b c ns d q = (ok, d', q')) :
    (ok = false → ¬ ∃ τ, SolvesEdges constraints τ) ∧
    (ok = true → Propagating constraints D x y b d' q' ∧ Settled constraints d' q' c [] ∧
      N * ∑ v ∈ nodes, d'.at v + q'.length ≤ N * ∑ v ∈ nodes, d.at v + q.length) := by
  induction ns generalizing d q with
  | nil =>
    obtain ⟨rfl, rfl, rfl⟩ : true = ok ∧ d = d' ∧ q = q' := by simpa [scan] using hr
    refine ⟨fun h => by contradiction, fun _ => ⟨?_, hs, le_rfl⟩⟩
    exact { h with reached := fun v hv => h.reached v (List.mem_cons_of_mem _ hv) }
  | cons n ns ih =>
    have hn : n ∈ constraints c := hns List.mem_cons_self
    have hsub : ns ⊆ constraints c := fun m hm => hns (List.mem_cons_of_mem _ hm)
    rw [scan] at hr
    simp only [sub_zero] at hr
    split_ifs at hr with hlt hcycle
    · obtain ⟨rfl, rfl, rfl⟩ : false = ok ∧ d = d' ∧ q = q' := by simpa using hr
      exact ⟨fun _ => (h.cycle hin hn hlt hcycle.1).2, fun h => by contradiction⟩
    · have hy : n.1 ≠ y := by
        intro hy
        refine hcycle ⟨hy, ?_⟩
        rw [(h.cycle hin hn hlt hy).1]
        simp [equalsWithTolerance]
      obtain ⟨hfalse, htrue⟩ := ih (h.relax hin hn hlt hy) (hs.relax hlt) hsub hr
      refine ⟨hfalse, fun hok => ?_⟩
      obtain ⟨hp, hset, hle⟩ := htrue hok
      refine ⟨hp, hset, hle.trans ?_⟩
      obtain ⟨z, hz⟩ := h.grid N hin.grid c
      obtain ⟨k, hk⟩ := hin.grid c n hn
      have hpot := potential_relax hin.scale (hin.closed c n hn) hlt
        ⟨z + k, by push_cast; rw [mul_add, hz, hk]⟩ (h.grid N hin.grid n.1)
      rw [List.length_append, List.length_singleton]
      push_cast
      linarith
    · refine ih h (fun u hu m hm => ?_) hsub hr
      rcases hs u hu m hm with ⟨hc, hmem⟩ | hs
      · rcases List.mem_cons.mp hmem with rfl | hmem
        · rw [hc]
          exact .inr (not_lt.mp hlt)
        · exact .inl ⟨hc, hmem⟩
      · exact .inr hs

/-- The loop ends, and finds a cycle exactly when there is one. -/
theorem propagate_spec (hin : Inserting constraints D x y b N nodes) (fuel : ℕ)
    (h : Propagating constraints D x y b d q) (hs : Settled constraints d q c [])
    (hfuel : N * ∑ v ∈ nodes, (d.at v - (D.at v - (D.at y - (D.at x + b)))) + q.length ≤ fuel) :
    ∃ ok d', propagate 0 constraints y b fuel d q = some (ok, d') ∧
      (ok = false → ¬ ∃ τ, SolvesEdges constraints τ) ∧
      (ok = true → Propagating constraints D x y b d' [] ∧
        ∀ u, ∀ n ∈ constraints u, d'.at n.1 ≤ d'.at u + n.2) := by
  have hdone : ∀ {d : Distances T} {c : T}, Settled constraints d [] c [] →
      ∀ u, ∀ n ∈ constraints u, d.at n.1 ≤ d.at u + n.2 := by
    intro d c hs u n hn
    rcases hs u List.not_mem_nil n hn with ⟨-, hmem⟩ | hle
    · exact absurd hmem List.not_mem_nil
    · exact hle
  induction fuel generalizing d q c with
  | zero =>
    have hnonneg : 0 ≤ (N : ℚ) * ∑ v ∈ nodes, (d.at v - (D.at v - (D.at y - (D.at x + b)))) :=
      mul_nonneg (Nat.cast_nonneg N) (Finset.sum_nonneg fun v _ => sub_nonneg.mpr (h.lower v))
    have hlen : q = [] := by
      have hle : (q.length : ℚ) ≤ 0 := by
        rw [Nat.cast_zero] at hfuel
        linarith
      exact List.length_eq_zero_iff.mp (by exact_mod_cast hle.antisymm (Nat.cast_nonneg _))
    subst hlen
    exact ⟨true, d, rfl, fun h => by contradiction, fun _ => ⟨h, hdone hs⟩⟩
  | succ fuel ih =>
    cases q with
    | nil => exact ⟨true, d, rfl, fun h => by contradiction, fun _ => ⟨h, hdone hs⟩⟩
    | cons v q =>
      have hset : Settled constraints d q v (constraints v) := by
        intro u hu m hm
        by_cases huv : u = v
        · exact .inl ⟨huv, huv ▸ hm⟩
        · refine (hs u ?_ m hm).imp (fun hmem => absurd hmem.2 List.not_mem_nil) id
          rw [List.mem_cons, not_or]
          exact ⟨huv, hu⟩
      rcases hr : scan 0 y b v (constraints v) d q with ⟨ok, d', q'⟩
      obtain ⟨hfalse, htrue⟩ := scan_spec hin h hset (fun m hm => hm) hr
      rw [propagate, hr]
      cases ok with
      | false => exact ⟨false, d', rfl, hfalse, fun h => by contradiction⟩
      | true =>
        obtain ⟨hp, hset', hle⟩ := htrue rfl
        refine ih hp hset' ?_
        rw [Finset.sum_sub_distrib, mul_sub] at hfuel ⊢
        rw [List.length_cons] at hfuel
        push_cast at hfuel
        linarith

theorem propagate_mono {tolerance : ℚ} {fuel fuel' : ℕ} {r : Bool × Distances T}
    (hr : propagate tolerance constraints y b fuel d q = some r) (hle : fuel ≤ fuel') :
    propagate tolerance constraints y b fuel' d q = some r := by
  induction fuel generalizing fuel' d q with
  | zero =>
    cases q with
    | nil => simpa only [propagate] using hr
    | cons c q => simp [propagate] at hr
  | succ fuel ih =>
    cases q with
    | nil => simpa only [propagate] using hr
    | cons c q =>
      obtain ⟨fuel', rfl⟩ := Nat.exists_eq_add_of_le' (show 1 ≤ fuel' by omega)
      rw [propagate] at hr ⊢
      rcases hs : scan tolerance y b c (constraints c) d q with ⟨ok, d', q'⟩
      rw [hs] at hr
      cases ok with
      | false => exact hr
      | true => exact ih hr (by omega)

/-! ### Insertions -/

/-- A network without a conflict holds the insertions `cs`, and its negated
distances are their earliest non-negative solution. -/
structure Represents (s : DeltaSTN T) (cs : List (Constraint T ℚ)) : Prop where
  tolerance : s.tolerance = 0
  known : ∀ c ∈ cs, (s.distances c.x).isSome ∧ (s.distances c.y).isSome
  unknown : ∀ v, (s.distances v).isSome = false → s.constraints v = []
  edges : ∀ u, ∀ n ∈ s.constraints u, ⟨u, n.1, n.2⟩ ∈ cs
  cover : ∀ c ∈ cs, ∃ n ∈ s.constraints c.x, n.1 = c.y ∧ n.2 ≤ c.b
  respects : ∀ u, ∀ n ∈ s.constraints u, s.distances.at n.1 ≤ s.distances.at u + n.2
  nonpos : ∀ v, s.distances.at v ≤ 0
  least : ∀ τ, SolvesEdges s.constraints τ → (∀ v, 0 ≤ τ v) → ∀ v, -τ v ≤ s.distances.at v
  grid : ∀ M, EdgesOnGrid s.constraints M → ∀ v, ∃ z : ℤ, (M : ℚ) * s.distances.at v = z

variable {s : DeltaSTN T} {cs : List (Constraint T ℚ)}

omit [DecidableEq T] in
theorem represents_new : Represents (new 0 : DeltaSTN T) [] := by
  refine ⟨rfl, fun c hc => absurd hc List.not_mem_nil, fun _ _ => rfl,
    fun u n hn => absurd hn List.not_mem_nil, fun c hc => absurd hc List.not_mem_nil,
    fun u n hn => absurd hn List.not_mem_nil, fun v => le_rfl, fun τ _ h0 v => ?_,
    fun M _ v => ⟨0, by simp [new, Distances.at]⟩⟩
  have hv := h0 v
  simp only [new, Distances.at, Option.getD_none]
  linarith

omit [DecidableEq T] in
theorem solvesEdges_iff {constraints : T → List (T × ℚ)} {τ : T → ℚ}
    (he : ∀ u, ∀ n ∈ constraints u, ⟨u, n.1, n.2⟩ ∈ cs)
    (hc : ∀ c ∈ cs, ∃ n ∈ constraints c.x, n.1 = c.y ∧ n.2 ≤ c.b) :
    SolvesEdges constraints τ ↔ Solves τ cs := by
  constructor
  · intro h c hcs
    obtain ⟨n, hn, hy, hb⟩ := hc c hcs
    rw [← hy]
    exact (h c.x n hn).trans hb
  · intro h u n hn
    exact h _ (he u n hn)

theorem insertNode_spec (h : Represents s cs) (x : T) :
    Represents (s.insertNode x) cs ∧ ((s.insertNode x).distances x).isSome ∧
      (∀ v, (s.distances v).isSome → ((s.insertNode x).distances v).isSome) ∧
      (s.insertNode x).isSat = s.isSat := by
  by_cases hx : (s.distances x).isSome = true
  · rw [insertNode, if_pos hx]
    exact ⟨h, hx, fun _ h => h, rfl⟩
  · have hat : Distances.at (Function.update s.distances x (some 0)) = s.distances.at := by
      rw [at_update]
      funext v
      by_cases hv : v = x
      · rw [hv, Function.update_self, Distances.at, Option.not_isSome_iff_eq_none.mp hx]
        rfl
      · rw [Function.update_of_ne hv]
    have hc : Function.update s.constraints x [] = s.constraints := by
      rw [← h.unknown x (by simpa using hx), Function.update_eq_self]
    have hsome : ∀ v, (s.distances v).isSome →
        (Function.update s.distances x (some 0) v).isSome := by
      intro v hv
      by_cases hvx : v = x
      · rw [hvx, Function.update_self]
        rfl
      · rwa [Function.update_of_ne hvx]
    rw [insertNode, if_neg hx]
    simp only [hc]
    refine ⟨⟨h.tolerance, fun c hcs => ⟨hsome _ (h.known c hcs).1, hsome _ (h.known c hcs).2⟩,
      fun v hv => h.unknown v ?_, h.edges, h.cover, ?_, ?_, ?_, ?_⟩, ?_, hsome, trivial⟩
    · by_contra hs
      rw [Bool.not_eq_false] at hs
      rw [hsome v hs] at hv
      contradiction
    · rw [hat]
      exact h.respects
    · rw [hat]
      exact h.nonpos
    · rw [hat]
      exact h.least
    · rw [hat]
      exact h.grid
    · rw [Function.update_self]
      rfl

theorem constraints_addEdge {x y : T} {b : ℚ} (u : T) : (s.addEdge x y b).constraints u =
    if u = x ∧ s.isSubsumed x y b = false then (y, b) :: s.constraints u else s.constraints u := by
  unfold addEdge
  by_cases hs : s.isSubsumed x y b = true
  · simp [hs]
  · by_cases hu : u = x
    · subst hu
      simp [hs]
    · simp [hs, hu]

theorem mem_addEdge {x y : T} {b : ℚ} {u : T} {n : T × ℚ}
    (hn : n ∈ (s.addEdge x y b).constraints u) : n ∈ s.constraints u ∨ u = x ∧ n = (y, b) := by
  rw [constraints_addEdge] at hn
  split_ifs at hn with h
  · exact (List.mem_cons.mp hn).symm.imp id fun hn => ⟨h.1, hn⟩
  · exact .inl hn

theorem subset_addEdge (x y : T) (b : ℚ) (u : T) :
    s.constraints u ⊆ (s.addEdge x y b).constraints u := by
  rw [constraints_addEdge]
  split_ifs
  · exact List.subset_cons_self _ _
  · exact fun n hn => hn

/-- An edge that is not added is implied by one that was. -/
theorem exists_addEdge (h : Represents s cs) (x y : T) (b : ℚ) :
    (∃ n ∈ s.constraints x, n.1 = y ∧ n.2 ≤ b) ∨ (y, b) ∈ (s.addEdge x y b).constraints x := by
  by_cases hsub : s.isSubsumed x y b = true
  · left
    unfold isSubsumed at hsub
    split at hsub
    · rename_i n hn
      refine ⟨n, List.mem_of_find?_eq_some hn, ?_, ?_⟩
      · simpa using List.find?_some hn
      · simpa [h.tolerance] using hsub
    · contradiction
  · right
    rw [constraints_addEdge, if_pos ⟨rfl, by simpa using hsub⟩]
    exact List.mem_cons_self

theorem addEdge_fields (x y : T) (b : ℚ) : (s.addEdge x y b).distances = s.distances ∧
    (s.addEdge x y b).tolerance = s.tolerance := by
  unfold addEdge
  split_ifs <;> exact ⟨rfl, rfl⟩

/-- What stays to be shown after an insertion is about the distances. -/
theorem Represents.insert {x y : T} {b : ℚ} {d : Distances T} {ok : Bool} (h : Represents s cs)
    (hx : (s.distances x).isSome) (hy : (s.distances y).isSome)
    (hknown : ∀ v, (s.distances v).isSome → (d v).isSome)
    (hrespects : ∀ u, ∀ n ∈ (s.addEdge x y b).constraints u, d.at n.1 ≤ d.at u + n.2)
    (hnonpos : ∀ v, d.at v ≤ 0)
    (hleast : ∀ τ, SolvesEdges (s.addEdge x y b).constraints τ → (∀ v, 0 ≤ τ v) →
      ∀ v, -τ v ≤ d.at v)
    (hgrid : ∀ M, EdgesOnGrid (s.addEdge x y b).constraints M → ∀ v, ∃ z : ℤ, (M : ℚ) * d.at v = z) :
    Represents { s.addEdge x y b with isSat := ok, distances := d } (cs ++ [⟨x, y, b⟩]) := by
  refine ⟨(addEdge_fields x y b).2.trans h.tolerance, fun c hc => ?_, fun v hv => ?_,
    fun u n hn => ?_, fun c hc => ?_, hrespects, hnonpos, hleast, hgrid⟩
  · rcases List.mem_append.mp hc with hc | hc
    · exact ⟨hknown _ (h.known c hc).1, hknown _ (h.known c hc).2⟩
    · rw [List.mem_singleton.mp hc]
      exact ⟨hknown _ hx, hknown _ hy⟩
  · have hold : (s.distances v).isSome = false := by
      by_contra hs
      rw [Bool.not_eq_false] at hs
      have hd : (d v).isSome = false := hv
      rw [hknown v hs] at hd
      contradiction
    apply List.eq_nil_iff_forall_not_mem.mpr
    intro n hn
    rcases mem_addEdge hn with hn | ⟨rfl, -⟩
    · rw [h.unknown v hold] at hn
      exact absurd hn List.not_mem_nil
    · rw [hx] at hold
      contradiction
  · rcases mem_addEdge hn with hn | ⟨rfl, rfl⟩
    · exact List.mem_append_left _ (h.edges u n hn)
    · simp
  · rcases List.mem_append.mp hc with hc | hc
    · obtain ⟨n, hn, hb⟩ := h.cover c hc
      exact ⟨n, subset_addEdge x y b _ hn, hb⟩
    · rw [List.mem_singleton.mp hc]
      rcases exists_addEdge h x y b with ⟨n, hn, hb⟩ | hn
      · exact ⟨n, subset_addEdge x y b x hn, hb⟩
      · exact ⟨_, hn, rfl, le_rfl⟩

theorem solvesEdges_of_addEdge {x y : T} {b : ℚ} {τ : T → ℚ}
    (h : SolvesEdges (s.addEdge x y b).constraints τ) : SolvesEdges s.constraints τ :=
  fun u n hn => h u n (subset_addEdge x y b u hn)

theorem edgesOnGrid_of_addEdge {x y : T} {b : ℚ} {M : ℕ}
    (h : EdgesOnGrid (s.addEdge x y b).constraints M) : EdgesOnGrid s.constraints M :=
  fun u n hn => h u n (subset_addEdge x y b u hn)

/-- An edge the distances already respect changes nothing else. -/
theorem Represents.insert_respected {x y : T} {b : ℚ} {ok : Bool} (h : Represents s cs)
    (hx : (s.distances x).isSome) (hy : (s.distances y).isSome)
    (hle : s.distances.at y ≤ s.distances.at x + b) :
    Represents { s.addEdge x y b with isSat := ok, distances := s.distances }
      (cs ++ [⟨x, y, b⟩]) := by
  refine h.insert hx hy (fun _ h => h) (fun u n hn => ?_) h.nonpos
    (fun τ hτ => h.least τ (solvesEdges_of_addEdge hτ))
    (fun M hM => h.grid M (edgesOnGrid_of_addEdge hM))
  rcases mem_addEdge hn with hn | ⟨rfl, rfl⟩
  · exact h.respects u n hn
  · exact hle

/-- The state right after the target of the inserted edge was lowered. -/
theorem Represents.propagating {x y : T} {b : ℚ} (h : Represents s cs)
    (hlt : s.distances.at x + b < s.distances.at y)
    (hin : (y, b) ∈ (s.addEdge x y b).constraints x) :
    Propagating (s.addEdge x y b).constraints s.distances x y b
        (Function.update s.distances y (some (s.distances.at x + b))) [y] ∧
      Settled (s.addEdge x y b).constraints
        (Function.update s.distances y (some (s.distances.at x + b))) [y] y [] := by
  have hle : ∀ v, Function.update s.distances.at y (s.distances.at x + b) v ≤ s.distances.at v := by
    intro v
    by_cases hv : v = y
    · rw [hv, Function.update_self]
      exact hlt.le
    · rw [Function.update_of_ne hv]
  constructor
  · refine ⟨fun v => ?_, fun v => ?_, ?_, fun v hv τ hτ => ?_, fun τ hτ h0 v => ?_,
      fun M hM v => ?_, fun v hv => ?_⟩
    · rw [at_update]
      by_cases hv : v = y
      · rw [hv, Function.update_self]
        linarith
      · rw [Function.update_of_ne hv]
        linarith
    · rw [at_update]
      exact hle v
    · rw [at_update, Function.update_self]
    · rw [List.mem_singleton.mp hv, sub_self, sub_self]
    · rw [at_update]
      by_cases hv : v = y
      · rw [hv, Function.update_self]
        have hx := h.least τ (solvesEdges_of_addEdge hτ) h0 x
        have hedge := hτ x _ hin
        linarith
      · rw [Function.update_of_ne hv]
        exact h.least τ (solvesEdges_of_addEdge hτ) h0 v
    · have hold := h.grid M (edgesOnGrid_of_addEdge hM)
      rw [at_update]
      by_cases hv : v = y
      · rw [hv, Function.update_self]
        obtain ⟨z, hz⟩ := hold x
        obtain ⟨k, hk⟩ := hM x _ hin
        exact ⟨z + k, by push_cast; rw [mul_add, hz, hk]⟩
      · rw [Function.update_of_ne hv]
        exact hold v
    · by_cases hvy : v = y
      · rw [hvy, Function.update_self]
        rfl
      · rw [Function.update_of_ne hvy]
        exact hv
  · intro u hu n hn
    have huy : u ≠ y := fun he => hu (List.mem_singleton.mpr he)
    right
    rw [at_update, Function.update_of_ne huy]
    rcases mem_addEdge hn with hn | ⟨rfl, rfl⟩
    · exact (hle n.1).trans (h.respects u n hn)
    · rw [Function.update_self]

theorem exists_inserting (h : Represents s cs) (x y : T) (b : ℚ) : ∃ N nodes,
    Inserting (s.addEdge x y b).constraints s.distances x y b N nodes := by
  obtain ⟨N, hN, hgrid⟩ := exists_scale (cs ++ [⟨x, y, b⟩])
  have hmem : ∀ u, ∀ n ∈ (s.addEdge x y b).constraints u,
      (⟨u, n.1, n.2⟩ : Constraint T ℚ) ∈ cs ++ [⟨x, y, b⟩] := by
    intro u n hn
    rcases mem_addEdge hn with hn | ⟨rfl, rfl⟩
    · exact List.mem_append_left _ (h.edges u n hn)
    · simp
  refine ⟨N, ((cs ++ [(⟨x, y, b⟩ : Constraint T ℚ)]).map Constraint.y).toFinset, ⟨fun u n hn => ?_, hN,
    fun u n hn => hgrid _ (hmem u n hn), fun u n hn => ?_⟩⟩
  · exact (mem_addEdge hn).imp (h.respects u n) id
  · exact List.mem_toFinset.mpr (List.mem_map.mpr ⟨_, hmem u n hn, rfl⟩)

/-- One insertion ends, and either keeps the network exact or finds the conflict. -/
theorem add_spec (h : Represents s cs) (hsat : s.isSat = true) (x y : T) (b : ℚ) :
    ∃ fuel₀ t, (∀ fuel ≥ fuel₀, s.add fuel x y b = some t) ∧
      (t.isSat = true ∧ Represents t (cs ++ [⟨x, y, b⟩]) ∨
        t.isSat = false ∧ ¬ Consistent (cs ++ [⟨x, y, b⟩])) := by
  obtain ⟨h₁, hx₁, -, -⟩ := insertNode_spec h x
  obtain ⟨h₂, hy, hkeep, -⟩ := insertNode_spec h₁ y
  have hx := hkeep x hx₁
  have hadd : ∀ fuel, s.add fuel x y b =
      ((((s.insertNode x).insertNode y).addEdge x y b).incCheck fuel x y b).map
        fun r => { ((s.insertNode x).insertNode y).addEdge x y b with
          isSat := r.1, distances := r.2 } := by
    intro fuel
    rw [add, if_pos hsat]
  simp only [hadd]
  generalize (s.insertNode x).insertNode y = r at h₂ hx hy
  obtain ⟨hdist, htol⟩ := addEdge_fields (s := r) x y b
  have hinc : ∀ fuel, (r.addEdge x y b).incCheck fuel x y b =
      if r.distances.at x + b < r.distances.at y then
        propagate 0 (r.addEdge x y b).constraints y b fuel
          (Function.update r.distances y (some (r.distances.at x + b))) [y]
      else some (true, r.distances) := by
    intro fuel
    rw [incCheck, hdist, htol, h₂.tolerance]
    simp only [sub_zero]
  simp only [hinc]
  by_cases hlt : r.distances.at x + b < r.distances.at y
  · have hnew : (y, b) ∈ (r.addEdge x y b).constraints x := by
      rcases exists_addEdge h₂ x y b with ⟨n, hn, hny, hb⟩ | hn
      · have hr := h₂.respects x n hn
        rw [hny] at hr
        linarith
      · exact hn
    obtain ⟨N, nodes, hin⟩ := exists_inserting h₂ x y b
    obtain ⟨hprop, hset⟩ := h₂.propagating hlt hnew
    obtain ⟨fuel₀, hfuel₀⟩ := exists_nat_ge ((N : ℚ) * ∑ v ∈ nodes,
      (Distances.at (Function.update r.distances y (some (r.distances.at x + b))) v -
        (r.distances.at v - (r.distances.at y - (r.distances.at x + b)))) + [y].length)
    obtain ⟨ok, d, hr, hfalse, htrue⟩ := propagate_spec hin fuel₀ hprop hset hfuel₀
    refine ⟨fuel₀, { r.addEdge x y b with isSat := ok, distances := d }, fun fuel hle => ?_, ?_⟩
    · rw [if_pos hlt, propagate_mono hr hle, Option.map_some]
    · cases ok with
      | false =>
        refine .inr ⟨rfl, fun hc => hfalse rfl ?_⟩
        obtain ⟨τ, hτ⟩ := hc
        refine ⟨τ, fun u n hn => ?_⟩
        rcases mem_addEdge hn with hn | ⟨rfl, rfl⟩
        · exact hτ _ (List.mem_append_left _ (h₂.edges u n hn))
        · exact hτ (⟨u, y, b⟩ : Constraint T ℚ) (by simp)
      | true =>
        obtain ⟨hp, hrespects⟩ := htrue rfl
        exact .inl ⟨rfl, h₂.insert hx hy hp.known hrespects
          (fun v => (hp.upper v).trans (h₂.nonpos v)) hp.least hp.grid⟩
  · refine ⟨0, { r.addEdge x y b with isSat := true, distances := r.distances },
      fun fuel _ => ?_, .inl ⟨rfl, h₂.insert_respected hx hy (not_lt.mp hlt)⟩⟩
    rw [if_neg hlt, Option.map_some]

theorem addAll_concat {fuel : ℕ} {c : Constraint T ℚ} :
    s.addAll fuel (cs ++ [c]) = (s.addAll fuel cs).bind fun s => s.add fuel c.x c.y c.b := by
  rw [addAll, List.foldlM_append]
  simp [addAll]

theorem add_unsat {fuel : ℕ} {x y : T} {b : ℚ} (h : s.isSat = false) :
    s.add fuel x y b = some s := by
  rw [add, if_neg (by simp [h])]

/-- Every insertion ends, and leaves the network exact until the first conflict. -/
theorem addAll_spec (cs : List (Constraint T ℚ)) : ∃ fuel₀ s,
    (∀ fuel ≥ fuel₀, (new 0).addAll fuel cs = some s) ∧
      (s.isSat = true ∧ Represents s cs ∨ s.isSat = false ∧ ¬ Consistent cs) := by
  induction cs using List.reverseRecOn with
  | nil => exact ⟨0, new 0, fun _ _ => rfl, .inl ⟨rfl, represents_new⟩⟩
  | append_singleton cs c ih =>
    obtain ⟨fuel₁, s, hs, hcase⟩ := ih
    rcases hcase with ⟨hsat, hrep⟩ | ⟨hunsat, hinc⟩
    · obtain ⟨fuel₂, t, ht, hcase⟩ := add_spec hrep hsat c.x c.y c.b
      refine ⟨max fuel₁ fuel₂, t, fun fuel hle => ?_, hcase⟩
      rw [addAll_concat, hs fuel (le_of_max_le_left hle), Option.bind_some,
        ht fuel (le_of_max_le_right hle)]
    · refine ⟨fuel₁, s, fun fuel hle => ?_, .inr ⟨hunsat, fun hc => hinc ?_⟩⟩
      · rw [addAll_concat, hs fuel hle, Option.bind_some, add_unsat hunsat]
      · exact hc.subset (List.subset_append_left _ _)

omit [DecidableEq T] in
theorem Represents.consistent (h : Represents s cs) :
    Solves (fun v => -s.distances.at v) cs ∧ ∀ τ, Solves τ cs → (∀ v, 0 ≤ τ v) →
      ∀ v, -s.distances.at v ≤ τ v := by
  constructor
  · apply (solvesEdges_iff h.edges h.cover).mp
    intro u n hn
    have hr := h.respects u n hn
    linarith
  · intro τ hτ h0 v
    have hl := h.least τ ((solvesEdges_iff h.edges h.cover).mpr hτ) h0 v
    linarith

omit [DecidableEq T] in
theorem consistent_iff_prefix : ¬ Consistent cs ↔ ∃ p, p <+: cs ∧ ¬ Consistent p := by
  constructor
  · intro h
    exact ⟨cs, List.prefix_rfl, h⟩
  · intro h hc
    obtain ⟨p, hp, hn⟩ := h
    exact hn (hc.subset hp.subset)

/-- The network answers exactly: it reports a conflict once the insertions so far
have no solution, and until then its values are the earliest solution. -/
theorem addAll_exact (cs : List (Constraint T ℚ)) : ∃ fuel₀ s,
    (∀ fuel ≥ fuel₀, (new 0).addAll fuel cs = some s) ∧
    (s.check = false ↔ ∃ p, p <+: cs ∧ ¬ Consistent p) ∧
    (s.check = true → ∃ τ : T → ℚ, (∀ c ∈ cs, s.getModelValue c.x = some (τ c.x) ∧
        s.getModelValue c.y = some (τ c.y)) ∧ Solves τ cs ∧ (∀ v, 0 ≤ τ v) ∧
      ∀ σ, Solves σ cs → (∀ v, 0 ≤ σ v) → ∀ v, τ v ≤ σ v) := by
  obtain ⟨fuel₀, s, hs, hcase⟩ := addAll_spec cs
  refine ⟨fuel₀, s, hs, ?_, fun hsat => ?_⟩
  · rw [← consistent_iff_prefix]
    rcases hcase with ⟨hsat, hrep⟩ | ⟨hunsat, hinc⟩
    · rw [check, hsat]
      exact iff_of_false (by simp) fun hn => hn ⟨_, hrep.consistent.1⟩
    · exact iff_of_true hunsat hinc
  · rcases hcase with ⟨-, hrep⟩ | ⟨hunsat, -⟩
    · obtain ⟨hsol, hleast⟩ := hrep.consistent
      have hvalue : ∀ {v}, (s.distances v).isSome → s.getModelValue v = some (-s.distances.at v) := by
        intro v hv
        obtain ⟨r, hr⟩ := Option.isSome_iff_exists.mp hv
        simp [getModelValue, Distances.at, hr]
      refine ⟨_, fun c hc => ⟨hvalue (hrep.known c hc).1, hvalue (hrep.known c hc).2⟩, hsol,
        fun v => ?_, hleast⟩
      have hv := hrep.nonpos v
      linarith
    · rw [check, hunsat] at hsat
      contradiction

end DeltaSTN

/-- The incremental network as the one the search space uses, run with enough
fuel. -/
noncomputable def DeltaSTN.network : DeltaSimpleTemporalNetwork where
  checkStn := fun cs => (addAll_spec cs).choose_spec.choose.check
  distances := fun cs => (addAll_spec cs).choose_spec.choose.distances.at
  tolerance := 0

theorem DeltaSTN.exact_network : DeltaSTN.network.Exact := by
  have hspec := fun cs : List Edge => (addAll_spec cs).choose_spec.choose_spec.2
  have hrep : ∀ {cs : List Edge}, Consistent cs →
      Represents (addAll_spec cs).choose_spec.choose cs := by
    intro cs hc
    rcases hspec cs with ⟨-, hrep⟩ | ⟨-, hinc⟩
    · exact hrep
    · contradiction
  refine ⟨fun cs => ?_, fun cs hc => (hrep hc).consistent.1, fun cs v hc => ?_, fun cs τ hτ h0 v => ?_⟩
  · rcases hspec cs with ⟨hsat, h⟩ | ⟨hunsat, hinc⟩
    · exact iff_of_true hsat ⟨_, h.consistent.1⟩
    · refine iff_of_false ?_ hinc
      simp only [network, check, hunsat, Bool.false_eq_true, not_false_eq_true]
  · have hv := (hrep hc).nonpos v
    simp only [network]
    linarith
  · exact (hrep ⟨τ, hτ⟩).consistent.2 τ hτ h0 v

end TamerLite
