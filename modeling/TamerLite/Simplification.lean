import TamerLite.SlotPass

/-! The search that writes out the root, and what `simplify` returns: a postfix
tree worth what the expression is. -/

namespace TamerLite

/-- A postfix expression in which every node but the last is an operand of one
later node, once. -/
structure PostfixTree (exp : Expression) : Prop where
  ne_nil : exp ≠ []
  ordered : Ordered exp
  operands : (exp.flatMap ExpressionNode.operands).Perm (List.range (exp.length - 1))

namespace Search

variable {res : Expression}

/-- One turn of the loop. -/
inductive Turns (res : Expression) : Search → Search → Prop
  | mk {idx : ℕ} {processed : Bool} {stack : List (ℕ × Bool)} {operandsStack : List ℕ}
      {finalRes : Expression} {t : Search} :
      turn res idx processed ⟨stack, operandsStack, finalRes⟩ = some t →
      Turns res ⟨(idx, processed) :: stack, operandsStack, finalRes⟩ t

abbrev Reaches (res : Expression) := Relation.ReflTransGen (Turns res)

/-- A loop that empties its stack returns what it has written by then. -/
theorem run_of_reaches {s : Search} {operandsStack : List ℕ} {out : Expression}
    (h : Reaches res s ⟨[], operandsStack, out⟩) :
    ∃ n, ∀ fuel, n ≤ fuel → run res fuel s = some out := by
  induction h using Relation.ReflTransGen.head_induction_on with
  | refl =>
    refine ⟨0, fun fuel _ => ?_⟩
    cases fuel <;> rfl
  | head ht _ ih =>
    obtain ⟨n, hn⟩ := ih
    obtain ⟨ht⟩ := ht
    refine ⟨n + 1, fun fuel hfuel => ?_⟩
    obtain ⟨fuel, rfl⟩ : ∃ k, fuel = k + 1 := ⟨fuel - 1, by omega⟩
    rw [run, ht]
    exact hn fuel (by omega)

variable [Callables] {core : Core} {get : Fluent → Option ConstantNode}
  {vals ws : List ConstantNode} {is : List ℕ}

/-- What the loop writes behind `finalRes` for the slot `idx`, worth `w`. -/
structure Writes (core : Core) (get : Fluent → Option ConstantNode) (res : Expression) (idx : ℕ)
    (w : ConstantNode) (finalRes : Expression) (fvals : List ConstantNode) (body : Expression)
    (root : ExpressionNode) (bvals : List ConstantNode) : Prop where
  reaches : ∀ stack operandsStack, Reaches res ⟨(idx, false) :: stack, operandsStack, finalRes⟩
    ⟨stack, (finalRes.length + body.length) :: operandsStack, finalRes ++ (body ++ [root])⟩
  valued : Valued core get (finalRes ++ (body ++ [root])) (fvals ++ (bvals ++ [w]))
  operands : ((body ++ [root]).flatMap ExpressionNode.operands).Perm
    (List.range' finalRes.length body.length)
  fluents : ∀ f, .fluent f ∈ body ++ [root] → .fluent f ∈ res

/-- What it writes for the slots `is` in a row, with the roots at `positions`. -/
structure WritesAll (core : Core) (get : Fluent → Option ConstantNode) (res : Expression)
    (is : List ℕ) (ws : List ConstantNode) (finalRes : Expression) (fvals : List ConstantNode)
    (seg : Expression) (svals : List ConstantNode) (positions : List ℕ) : Prop where
  reaches : ∀ stack operandsStack, Reaches res
    ⟨is.map (·, false) ++ stack, operandsStack, finalRes⟩
    ⟨stack, positions.reverse ++ operandsStack, finalRes ++ seg⟩
  valued : Valued core get (finalRes ++ seg) (fvals ++ svals)
  values : Operands (fvals ++ svals) positions ws
  operands : (seg.flatMap ExpressionNode.operands ++ positions).Perm
    (List.range' finalRes.length seg.length)
  fluents : ∀ f, .fluent f ∈ seg → .fluent f ∈ res

theorem exists_writesAll (hvs : Operands vals is ws)
    (h : ∀ i ∈ is, ∀ w, vals[i]? = some w → ∀ finalRes fvals, Valued core get finalRes fvals →
      ∃ body root bvals, Writes core get res i w finalRes fvals body root bvals)
    {finalRes : Expression} {fvals : List ConstantNode} (hf : Valued core get finalRes fvals) :
    ∃ seg svals positions, WritesAll core get res is ws finalRes fvals seg svals positions := by
  induction hvs generalizing finalRes fvals with
  | nil => exact ⟨[], [], [], fun _ _ => by simpa using .refl, by simpa using hf, .nil, .nil, by simp⟩
  | @cons i w is ws hi _ ih =>
    obtain ⟨body, root, bvals, hw⟩ := h i List.mem_cons_self w hi finalRes fvals hf
    obtain ⟨seg, svals, positions, hws⟩ :=
      ih (fun j hj => h j (List.mem_cons_of_mem _ hj)) hw.valued
    have hlen : (fvals ++ (bvals ++ [w])).length = (finalRes ++ (body ++ [root])).length :=
      hw.valued.length
    have hflen := hf.length
    simp only [List.length_append, List.length_singleton] at hlen
    refine ⟨body ++ [root] ++ seg, bvals ++ [w] ++ svals,
      (finalRes.length + body.length) :: positions, ?_, ?_, ?_, ?_, ?_⟩
    · intro stack operandsStack
      have hhead := hw.reaches (is.map (·, false) ++ stack) operandsStack
      have htail := hws.reaches stack ((finalRes.length + body.length) :: operandsStack)
      simpa using hhead.trans htail
    · simpa using hws.valued
    · refine .cons ?_ (by simpa using hws.values)
      rw [List.getElem?_append_right (by omega), List.append_assoc,
        List.getElem?_append_right (by omega), List.singleton_append]
      rw [show finalRes.length + body.length - fvals.length - bvals.length = 0 by omega]
      rfl
    · have hsplit : List.range' finalRes.length (body ++ [root] ++ seg).length =
          List.range' finalRes.length body.length ++ (finalRes.length + body.length) ::
            List.range' (finalRes.length + body.length + 1) seg.length := by
        rw [← List.range'_succ, List.range'_append_1]
        congr 1
        simp only [List.length_append, List.length_singleton]
        omega
      have hsum := hw.operands.append hws.operands
      rw [List.length_append, List.length_append, List.length_singleton, ← add_assoc] at hsum
      rw [hsplit, List.flatMap_append]
      refine List.perm_middle.trans ((List.Perm.cons _ ?_).trans List.perm_middle.symm)
      rw [List.append_assoc]
      exact hsum
    · intro f hm
      rcases List.mem_append.mp hm with hm | hm
      · exact hw.fluents f hm
      · exact hws.fluents f hm

theorem exists_writes (h : Valued core get res vals) (idx : ℕ) :
    ∀ w, vals[idx]? = some w → ∀ finalRes fvals, Valued core get finalRes fvals →
      ∃ body root bvals, Writes core get res idx w finalRes fvals body root bvals := by
  induction idx using Nat.strong_induction_on with
  | _ idx ih =>
    intro w hw finalRes fvals hf
    obtain ⟨e, he⟩ := h.exists_node hw
    obtain ⟨us, hus, hu⟩ := h.value he
    rw [hw] at hu
    have hleaf : e.operands = [] → turn res idx false = (fun s : Search =>
        some ⟨s.stack, s.finalRes.length :: s.operandsStack, s.finalRes ++ [e]⟩) →
        ∃ body root bvals, Writes core get res idx w finalRes fvals body root bvals := by
      intro hnil hturn
      have hus' : Operands fvals e.operands us := by
        rw [hnil] at hus ⊢
        cases hus
        exact .nil
      refine ⟨[], e, [], fun stack operandsStack => ?_, by simpa using hf.append hus' hu,
        by simp [hnil], fun f hm => ?_⟩
      · refine .single ⟨?_⟩
        rw [hturn]
        simp
      · simp only [List.nil_append, List.mem_singleton] at hm
        exact hm ▸ List.mem_of_getElem? he
    have hnode : (∀ s, turn res idx false s =
          some { s with stack := e.operands.map (·, false) ++ (idx, true) :: s.stack }) →
        (∀ s, turn res idx true s = some ⟨s.stack,
          s.finalRes.length :: s.operandsStack.drop e.operands.length,
          s.finalRes ++ [e.withOperands (s.operandsStack.take e.operands.length).reverse]⟩) →
        (∀ is, (e.withOperands is).operands = is ∧
          core.nodeValue get (e.withOperands is) us = core.nodeValue get e us ∧
          ∀ f, e.withOperands is ≠ .fluent f) →
        ∃ body root bvals, Writes core get res idx w finalRes fvals body root bvals := by
      intro hpush hpop hsame
      obtain ⟨seg, svals, positions, hws⟩ := exists_writesAll hus
        (fun i hi => ih i (h.ordered he i hi)) hf
      obtain ⟨hops, hval, hflu⟩ := hsame positions
      have hlen : positions.length = e.operands.length :=
        hws.values.length_eq.trans hus.length_eq.symm
      refine ⟨seg, e.withOperands positions, svals, fun stack operandsStack => ?_, ?_, ?_, ?_⟩
      · have hfirst : Turns res ⟨(idx, false) :: stack, operandsStack, finalRes⟩ _ :=
          ⟨hpush ⟨stack, operandsStack, finalRes⟩⟩
        have hlast : Turns res ⟨(idx, true) :: stack, positions.reverse ++ operandsStack,
            finalRes ++ seg⟩ _ := ⟨hpop _⟩
        have hmid := hws.reaches ((idx, true) :: stack) operandsStack
        have hall := (Relation.ReflTransGen.head hfirst hmid).tail hlast
        simpa [← hlen] using hall
      · have hpos : Operands (fvals ++ svals) (e.withOperands positions).operands us :=
          hops.symm ▸ hws.values
        have := hws.valued.append hpos (hval.trans hu)
        simpa using this
      · rw [List.flatMap_append, List.flatMap_singleton, hops]
        exact hws.operands
      · intro f hm
        rcases List.mem_append.mp hm with hm | hm
        · exact hws.fluents f hm
        · exact absurd (List.mem_singleton.mp hm).symm (hflu f)
    cases e with
    | constant c => exact hleaf rfl (by funext s; simp [turn, he])
    | fluent f => exact hleaf rfl (by funext s; simp [turn, he])
    | interpretedFunction fn rt operands =>
      exact hnode (fun s => by simp [turn, he]) (fun s => by simp [turn, he])
        fun is => ⟨rfl, rfl, fun f hf => nomatch hf⟩
    | operator kind operands =>
      exact hnode (fun s => by simp [turn, he]) (fun s => by simp [turn, he])
        fun is => ⟨rfl, rfl, fun f hf => nomatch hf⟩

end Search

/-- `simplify` keeps the meaning of an expression whose connectives are over
Booleans: on a postfix tree, under values the state agrees with, it returns a
postfix tree over fluents that are left open, worth the same in the state. -/
theorem simplify_preserves_meaning [Callables] (core : Core) {exp : Expression}
    {assignments : Fluent → Option ConstantNode} (flag : Bool) {state : Assignments}
    {v : ConstantNode} (htree : PostfixTree exp)
    (hagree : ∀ f c, assignments f = some c → getValue state f = some c)
    (hv : core.evaluate exp state = some v)
    (hbool : ∀ vals, core.evalNodes (getValue state) exp [] = some vals →
      BooleanConnectives exp vals) :
    ∃ out n, (∀ fuel, n ≤ fuel → simplify core assignments flag fuel exp = some out) ∧
      core.evaluate out state = some v ∧ PostfixTree out ∧
      ∀ f, .fluent f ∈ out → .fluent f ∈ exp ∧ assignments f = none := by
  obtain ⟨vals, hvals, hlast⟩ := Option.bind_eq_some_iff.mp hv
  have hval := (Valued.evalNodes_iff htree.ordered).mp hvals
  have hnd : (exp.flatMap ExpressionNode.operands).Nodup :=
    htree.operands.nodup_iff.mpr List.nodup_range
  obtain ⟨res, vals', hres, hf⟩ := foldSlots_spec flag hagree hnd hval (hbool vals hvals)
  have hpos := List.length_pos_iff.mpr htree.ne_nil
  have hroot : vals'[res.length - 1]? = some v := by
    have hunread : exp.length - 1 ∉ exp.flatMap ExpressionNode.operands := by
      rw [htree.operands.mem_iff, List.mem_range]
      omega
    rw [hf.length, hf.agrees _ hunread, ← hval.length, ← List.getLast?_eq_getElem?]
    exact hlast
  obtain ⟨body, root, bvals, hw⟩ := Search.exists_writes hf.valued _ v hroot [] [] .nil
  obtain ⟨n, hn⟩ := Search.run_of_reaches (hw.reaches [] [])
  have hout : Valued core (getValue state) (body ++ [root]) (bvals ++ [v]) := by
    simpa using hw.valued
  refine ⟨body ++ [root], n, fun fuel hfuel => ?_, ?_, ⟨by simp, hout.ordered, ?_⟩, fun f hm => ?_⟩
  · rw [simplify, hres]
    exact hn fuel hfuel
  · rw [Core.evaluate, (Valued.evalNodes_iff hout.ordered).mpr hout]
    simp
  · simpa [List.range_eq_range'] using hw.operands
  · exact hf.fluents f (hw.fluents f hm)

section Witness

attribute [local instance] Callables.empty

/-- A sum with two constants, compared below a conjunction with a constant. -/
def sumBelow : Expression :=
  [.fluent ⟨0⟩, .constant (.num 2), .constant (.num 3), .operator .plus [0, 1, 2],
    .constant (.num 9), .operator .le [3, 4], .constant (.bool true), .operator .and [5, 6]]

theorem ordered_of_decide {exp : Expression}
    (h : ∀ p ∈ exp.zipIdx, ∀ o ∈ p.1.operands, o < p.2) : Ordered exp := by
  intro i e he o ho
  exact h (e, i) (List.mem_zipIdx_iff_getElem?.mpr he) o ho

theorem simplify_preserves_meaning_sumBelow : ∃ out n,
    (∀ fuel, n ≤ fuel → simplify .python (fun _ => none) false fuel sumBelow = some out) ∧
      Core.python.evaluate out [.num 1] = some (.bool true) ∧ PostfixTree out ∧
      ∀ f, .fluent f ∈ out → .fluent f ∈ sumBelow ∧ (none : Option ConstantNode) = none := by
  have htree : PostfixTree sumBelow := ⟨by decide, ordered_of_decide (by decide), by decide⟩
  have hvals : Core.python.evalNodes (getValue [.num 1]) sumBelow [] =
      some [.num 1, .num 2, .num 3, .num 6, .num 9, .bool true, .bool true, .bool true] := by
    decide +kernel
  refine simplify_preserves_meaning .python false htree (fun f c h => nomatch h)
    (by decide +kernel) ?_
  intro vals hv kind operands hm hk i hi
  obtain rfl := Option.some.inj (hvals.symm.trans hv)
  simp only [sumBelow, List.mem_cons, ExpressionNode.operator.injEq, reduceCtorEq, List.not_mem_nil,
    false_or, or_false] at hm
  rcases hm with ⟨rfl, -⟩ | ⟨rfl, -⟩ | ⟨rfl, rfl⟩
  · exact absurd hk (by decide)
  · exact absurd hk (by decide)
  · simp only [List.mem_cons, List.not_mem_nil, or_false] at hi
    rcases hi with rfl | rfl <;> exact ⟨true, rfl⟩

/-- A connective of one number. -/
def oneNumber : Expression := [.constant (.num 5), .operator .and [0]]

/-- A connective that is left with one operand gives way to it, a Boolean or not. -/
theorem simplify_oneNumber :
    PostfixTree oneNumber ∧ Core.python.evaluate oneNumber [] = some (.bool true) ∧
      ∀ fuel, 2 ≤ fuel → ∃ out, simplify .python (fun _ => none) false fuel oneNumber = some out ∧
        Core.python.evaluate out [] = some (.num 5) := by
  have htree : PostfixTree oneNumber := ⟨by decide, ordered_of_decide (by decide), by decide⟩
  have hout : Core.python.evaluate [.constant (.num 5)] [] = some (.num 5) := by decide +kernel
  refine ⟨htree, by decide +kernel, fun fuel hfuel => ⟨[.constant (.num 5)], ?_, hout⟩⟩
  obtain ⟨fuel, rfl⟩ : ∃ k, fuel = k + 2 := ⟨fuel - 2, by omega⟩
  rfl

end Witness

end TamerLite
