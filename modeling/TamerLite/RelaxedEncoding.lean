import TamerLite.HMaxAdmissible
import TamerLite.RelaxedConditions

/-! What a problem's encoding promises of its conditions and effects, and the kinds
of leaves a heuristic built from it reads. -/

namespace TamerLite

/-- The values a fluent of this domain holds. -/
def FluentDomain.Has (d : FluentDomain) : ConstantNode → Prop
  | .bool _ => d.kind = .bool
  | .num _ => d.kind = .int ∨ d.kind = .real
  | .object o => d.kind = .object ∧ o ∈ d.objects

/-- Every fluent holds a value of its domain. -/
def WithinDomains (domains : List FluentDomain) (assignments : Assignments) : Prop :=
  ∀ (i : ℕ) (d : FluentDomain), domains[i]? = some d → ∃ v, assignments[i]? = some v ∧ d.Has v

namespace ExprTree

variable (domains : List FluentDomain)

/-- Numbers, numeric fluents and arithmetic. -/
inductive Arithmetic : ExprTree → Prop
  | number (q : ℚ) : Arithmetic (node (.constant (.num q)) [])
  | fluent {f : Fluent} {d : FluentDomain} (hd : domains[f.idx]? = some d)
      (hkind : d.kind = .int ∨ d.kind = .real) : Arithmetic (node (.fluent f) [])
  | operator {kind : OperatorKind} {operands : List ℕ} {args : List ExprTree}
      (hkind : kind = .plus ∨ kind = .minus ∨ kind = .times ∨ kind = .div)
      (hargs : ∀ t ∈ args, Arithmetic t) : Arithmetic (node (.operator kind operands) args)

/-- A Boolean fluent, a comparison of numbers, or an equality of objects, which the
converter writes with a fluent first. -/
inductive Atom : ExprTree → Prop
  | fluent {f : Fluent} {d : FluentDomain} (hd : domains[f.idx]? = some d) (hkind : d.kind = .bool) :
      Atom (node (.fluent f) [])
  | compare {kind : OperatorKind} {operands : List ℕ} {a b : ExprTree}
      (hkind : kind = .le ∨ kind = .lt ∨ kind = .eq) (ha : Arithmetic domains a)
      (hb : Arithmetic domains b) : Atom (node (.operator kind operands) [a, b])
  | equalsObject {f : Fluent} {d : FluentDomain} {o : Object} {operands : List ℕ}
      (hd : domains[f.idx]? = some d) (hkind : d.kind = .object) :
      Atom (node (.operator .eq operands) [node (.fluent f) [], node (.constant (.object o)) []])
  | equalFluents {f g : Fluent} {d d' : FluentDomain} {operands : List ℕ}
      (hd : domains[f.idx]? = some d) (hkind : d.kind = .object)
      (hd' : domains[g.idx]? = some d') (hkind' : d'.kind = .object) :
      Atom (node (.operator .eq operands) [node (.fluent f) [], node (.fluent g) []])

/-- What stands below the connectives of a condition in negation normal form. -/
inductive Literal : ExprTree → Prop
  | false : Literal (node (.constant (.bool Bool.false)) [])
  | atom {t : ExprTree} (ht : Atom domains t) : Literal t
  | not {t : ExprTree} {operands : List ℕ} (ht : Atom domains t) :
      Literal (node (.operator .not operands) [t])
  | interpreted {t : ExprTree} (ht : hasInterpretedFunction (t.layout 0) = true) : Literal t

/-- A condition in negation normal form. -/
inductive Supported : ExprTree → Prop
  | true : Supported (node (.constant (.bool Bool.true)) [])
  | literal {e : ExpressionNode} {args : List ExprTree} (ht : Literal domains (node e args))
      (hroot : ∀ operands, e ≠ .operator .and operands ∧ e ≠ .operator .or operands) :
      Supported (node e args)
  | and {operands : List ℕ} {args : List ExprTree} (hargs : ∀ t ∈ args, Supported t) :
      Supported (node (.operator .and operands) args)
  | or {operands : List ℕ} {args : List ExprTree} (hargs : ∀ t ∈ args, Supported t) :
      Supported (node (.operator .or operands) args)

/-- A condition the heuristics take, whose equalities compare values of one type. -/
structure Condition [Callables] (t : ExprTree) : Prop where
  wellFormed : t.wellFormed = true
  proper : t.proper = true
  supported : t.Supported domains
  comparesAlike : ∀ assignments, WithinDomains domains assignments →
    t.ComparesAlike .python (getValue assignments)

end ExprTree

/-- The events, fluents and goal a heuristic is built from. -/
structure HeuristicEncoding [Callables] (ss : SearchSpace) (events : List (Action × List (Timing × Event)))
    (domains : List FluentDomain) : Prop where
  events_iff : ∀ {a le}, (a, le) ∈ events ↔ ss.events a = some le
  initial : ss.initialState.length = domains.length ∧ WithinDomains domains ss.initialState
  conditions : ∀ {a k te}, ss.event a k = some te →
    ∀ x ∈ te.2.conditions :: te.2.endConditions, ∃ t : ExprTree, x = t.layout 0 ∧ t.Condition domains
  goal : ∃ t : ExprTree, ss.goal = t.layout 0 ∧ t.Condition domains
  effects : ∀ {a k te}, ss.event a k = some te → ∀ eff ∈ te.2.effects, IsExpression eff.value ∧
    ∃ d, domains[eff.fluent.idx]? = some d ∧ ∀ assignments, WithinDomains domains assignments →
      ∀ v, evaluate eff.value assignments = some v → d.Has v

/-! ### Leaves -/

/-- A comparison of numbers, or the negation of one. -/
structure NumericLeaf (domains extended : List FluentDomain) (e : Expression) : Prop where
  isExpression : IsExpression e
  plain : hasInterpretedFunction e = Bool.false
  numeric : isNumericLeafExpression extended e = some Bool.true
  fluents : ∀ f ∈ getFluents e, ∃ d, domains[f.idx]? = some d ∧ (d.kind = .int ∨ d.kind = .real)

/-- The kinds of leaves of a rewritten condition. -/
inductive LeafShape (domains extended : List FluentDomain) : Expression → Prop
  | false : LeafShape domains extended [.constant (.bool Bool.false)]
  | fluent {f : Fluent} {d : FluentDomain} (hd : domains[f.idx]? = some d) (hkind : d.kind = .bool) :
      LeafShape domains extended [.fluent f]
  | notFluent {f : Fluent} {d : FluentDomain} (hd : domains[f.idx]? = some d) (hkind : d.kind = .bool) :
      LeafShape domains extended [.fluent f, .operator .not [0]]
  | equalsObject {f : Fluent} {d : FluentDomain} (o : Object) (hd : domains[f.idx]? = some d)
      (hkind : d.kind = .object) : LeafShape domains extended (equalsObject f o)
  | numeric {e : Expression} (h : NumericLeaf domains extended e) : LeafShape domains extended e
  | interpreted {e : Expression} (hif : hasInterpretedFunction e = Bool.true) : LeafShape domains extended e
  | flag {f : Fluent} (hf : domains.length ≤ f.idx) : LeafShape domains extended [.fluent f]

section Shapes

variable {domains extended : List FluentDomain} {disable : Bool}

namespace ExprTree

theorem Arithmetic.spec {t : ExprTree} (h : t.Arithmetic domains) : ∀ n,
    hasInterpretedFunction (t.layout n) = false ∧
      ∀ f ∈ getFluents (t.layout n), ∃ d, domains[f.idx]? = some d ∧ (d.kind = .int ∨ d.kind = .real) := by
  induction t using ExprTree.rec (motive_2 := fun ts => (∀ t ∈ ts, t.Arithmetic domains) → ∀ n,
    hasInterpretedFunction (layouts n ts) = false ∧ ∀ f ∈ getFluents (layouts n ts),
      ∃ d, domains[f.idx]? = some d ∧ (d.kind = .int ∨ d.kind = .real)) with
  | node e args ih =>
    intro n
    cases h with
    | number q => exact ⟨rfl, fun f hf => by cases hf⟩
    | fluent hd hkind =>
      refine ⟨rfl, fun f hf => ?_⟩
      obtain rfl := List.mem_singleton.mp hf
      exact ⟨_, hd, hkind⟩
    | operator hkind hargs =>
      obtain ⟨hif, hfluents⟩ := ih hargs n
      rw [layout]
      refine ⟨?_, fun f hf => ?_⟩
      · rw [hasInterpretedFunction, List.any_append, Bool.or_eq_false_iff]
        exact ⟨hif, rfl⟩
      · rw [mem_getFluents, List.mem_append] at hf
        rcases hf with hf | hf
        · exact hfluents f (mem_getFluents.mpr hf)
        · simp [ExpressionNode.withOperands] at hf
  | nil _ n => exact ⟨rfl, fun f hf => by cases hf⟩
  | cons t ts ih ihs hts n =>
    obtain ⟨hif, hfluents⟩ := ih (hts t List.mem_cons_self) n
    obtain ⟨hif', hfluents'⟩ := ihs (fun u hu => hts u (List.mem_cons_of_mem t hu)) (n + t.size)
    rw [layouts]
    refine ⟨?_, fun f hf => ?_⟩
    · rw [hasInterpretedFunction, List.any_append, Bool.or_eq_false_iff]
      exact ⟨hif, hif'⟩
    · rw [mem_getFluents, List.mem_append] at hf
      rcases hf with hf | hf
      · exact hfluents f (mem_getFluents.mpr hf)
      · exact hfluents' f (mem_getFluents.mpr hf)

/-- No arithmetic operand is an object. -/
theorem Arithmetic.isObjectTyped {t : ExprTree} (h : t.Arithmetic domains) {exp : Expression} {i : ℕ}
    {operands : List ℕ} (hext : ∀ {i : ℕ} {d : FluentDomain}, domains[i]? = some d → extended[i]? = some d)
    (hi : exp[i]? = some (t.root.withOperands operands)) :
    TamerLite.isObjectTyped extended exp i = some false := by
  rw [TamerLite.isObjectTyped, hi]
  cases h with
  | number q => rfl
  | operator hkind hargs => rfl
  | fluent hd hkind =>
    have hmap := hext hd
    simp only [root, ExpressionNode.withOperands, Option.bind_eq_bind, Option.bind_some,
      isObjectTypedOperand, List.getElem?_map, hmap, Option.map_some]
    rcases hkind with hk | hk <;> rw [hk] <;> rfl

/-- A comparison of numbers is numeric. -/
theorem isNumericOperator_compare {kind : OperatorKind} {a b : ExprTree} (post : Expression)
    (hext : ∀ {i : ℕ} {d : FluentDomain}, domains[i]? = some d → extended[i]? = some d)
    (hkind : kind = .le ∨ kind = .lt ∨ kind = .eq) (ha : a.Arithmetic domains) (hb : b.Arithmetic domains) :
    isNumericOperator extended (layouts 0 [a, b] ++ post)
      (.operator kind [a.size - 1, a.size + b.size - 1]) = some true := by
  rcases hkind with rfl | rfl | rfl
  · rfl
  · rfl
  · simp only [isNumericOperator, ha.isObjectTyped hext (getElem?_first a b post),
      hb.isObjectTyped hext (getElem?_second a b post)]
    rfl

theorem numericLeaf_compare {kind : OperatorKind} (operands : List ℕ) {a b : ExprTree}
    (hext : ∀ {i : ℕ} {d : FluentDomain}, domains[i]? = some d → extended[i]? = some d)
    (hkind : kind = .le ∨ kind = .lt ∨ kind = .eq) (ha : a.Arithmetic domains) (hb : b.Arithmetic domains)
    (hwf : a.wellFormed = true ∧ b.wellFormed = true) (hproper : a.proper = true ∧ b.proper = true) :
    NumericLeaf domains extended ((node (.operator kind operands) [a, b]).layout 0) ∧
      ∀ operands', NumericLeaf domains extended
        ((node (.operator .not operands') [node (.operator kind operands) [a, b]]).layout 0) := by
  have hwf' : (node (.operator kind operands) [a, b]).wellFormed = true := by
    simp [wellFormed, wellFormeds, arityOk, hwf.1, hwf.2]
  have hproper' : (node (.operator kind operands) [a, b]).proper = true := by
    rcases hkind with rfl | rfl | rfl <;>
      simp [proper, propers, OperatorKind.takes, hproper.1, hproper.2]
  obtain ⟨hifa, hfa⟩ := ha.spec 0
  obtain ⟨hifb, hfb⟩ := hb.spec a.size
  have hif : hasInterpretedFunction (layouts 0 [a, b]) = false := by
    rw [layouts_pair, hasInterpretedFunction, List.any_append, Bool.or_eq_false_iff]
    exact ⟨hifa, hifb⟩
  have hfluents : ∀ f, .fluent f ∈ layouts 0 [a, b] →
      ∃ d, domains[f.idx]? = some d ∧ (d.kind = .int ∨ d.kind = .real) := by
    intro f hf
    rw [layouts_pair, List.mem_append] at hf
    exact hf.elim (fun h => hfa f (mem_getFluents.mpr h)) fun h => hfb f (mem_getFluents.mpr h)
  refine ⟨⟨⟨_, hwf', hproper', rfl⟩, ?_, ?_, ?_⟩, fun operands' =>
    ⟨⟨node (.operator .not operands') [node (.operator kind operands) [a, b]], ?_, ?_, rfl⟩, ?_, ?_, ?_⟩⟩
  · rw [layout_pair, hasInterpretedFunction, List.any_append, Bool.or_eq_false_iff]
    exact ⟨hif, rfl⟩
  · rw [layout_pair, isNumericLeafExpression, List.getLast?_concat]
    have h := isNumericOperator_compare [.operator kind [a.size - 1, a.size + b.size - 1]] hext hkind ha hb
    rcases hkind with rfl | rfl | rfl <;> exact h
  · intro f hf
    rw [layout_pair, mem_getFluents, List.mem_append] at hf
    exact hfluents f (hf.resolve_right (by simp))
  · simp [wellFormed, wellFormeds, arityOk, hwf.1, hwf.2]
  · rw [proper, propers, hproper']
    rfl
  · rw [layout_not, layout_pair, hasInterpretedFunction, List.any_append, List.any_append,
      Bool.or_eq_false_iff, Bool.or_eq_false_iff]
    exact ⟨⟨hif, rfl⟩, rfl⟩
  · have h := isNumericOperator_compare ([.operator kind [a.size - 1, a.size + b.size - 1]] ++
      [.operator .not [(node (.operator kind operands) [a, b]).size - 1]]) hext hkind ha hb
    have hget := getElem?_layout (node (.operator kind operands) [a, b])
      [.operator .not [(node (.operator kind operands) [a, b]).size - 1]]
    rw [layout_not, isNumericLeafExpression, List.getLast?_concat]
    simp only [List.getElem?_cons_zero, Option.bind_eq_bind, Option.bind_some, hget]
    rw [layout_pair, List.append_assoc]
    simpa only [root, args, ExpressionNode.withOperands, roots_pair] using h
  · intro f hf
    rw [layout_not, layout_pair, mem_getFluents, List.mem_append, List.mem_append] at hf
    exact hfluents f ((hf.resolve_right (by simp)).resolve_right (by simp))

end ExprTree

variable {r : Option HeuristicExpression} {x : Expression}

theorem mem_keepLinear {nodes h : HeuristicExpression} (hk : keepLinear .python nodes = some h)
    (hx : .leaf x ∈ h) : .leaf x ∈ nodes := keepLinear_eq hk ▸ hx

open ExprTree in
/-- A rewritten comparison gives comparisons of the same operands. -/
theorem simplifyNumeric_shape {kind : OperatorKind} {operands : List ℕ} {a b : ExprTree}
    {h : HeuristicExpression}
    (hext : ∀ {i : ℕ} {d : FluentDomain}, domains[i]? = some d → extended[i]? = some d)
    (hkind : kind = .le ∨ kind = .lt ∨ kind = .eq) (ha : a.Arithmetic domains) (hb : b.Arithmetic domains)
    (hwf : a.wellFormed = true ∧ b.wellFormed = true) (hproper : a.proper = true ∧ b.proper = true) :
    (simplifyNumericLeafNode .python ((node (.operator kind operands) [a, b]).layout 0) = some h ∨
      ∃ operands', simplifyNumericLeafNode .python
        ((node (.operator .not operands') [node (.operator kind operands) [a, b]]).layout 0) = some h) →
    ∀ x, .leaf x ∈ h → LeafShape domains extended x := by
  have hsame : ∀ k : OperatorKind, k = .le ∨ k = .lt →
      LeafShape domains extended (layouts 0 [a, b] ++ [.operator k [a.size - 1, a.size + b.size - 1]]) := by
    intro k hk
    have hshape := (numericLeaf_compare [] hext (hk.imp_right .inl) ha hb hwf hproper).1
    rw [layout_pair] at hshape
    exact .numeric hshape
  have hswap : ∀ k : OperatorKind, k = .le ∨ k = .lt → ∀ post, LeafShape domains extended
      (invertOperands (layouts 0 [a, b] ++ post) (a.size - 1) (a.size + b.size - 1) k) := by
    intro k hk post
    rw [invertOperands_layout]
    exact .numeric (numericLeaf_compare [] hext (hk.imp_right .inl) hb ha ⟨hwf.2, hwf.1⟩
      ⟨hproper.2, hproper.1⟩).1
  have hpair : ∀ {k : OperatorKind} {n : HeuristicNode} {post : Expression}, (k = .le ∨ k = .lt) →
      (∀ e, n ≠ .leaf e) → ∀ x, .leaf x ∈ [HeuristicNode.leaf
        (layouts 0 [a, b] ++ [.operator k [a.size - 1, a.size + b.size - 1]]),
        .leaf (invertOperands (layouts 0 [a, b] ++ post) (a.size - 1) (a.size + b.size - 1) k), n] →
      LeafShape domains extended x := by
    intro k n post hk hn x hx
    simp only [List.mem_cons, HeuristicNode.leaf.injEq, List.not_mem_nil, or_false] at hx
    rcases hx with rfl | rfl | hx
    · exact hsame k hk
    · exact hswap k hk _
    · exact absurd hx.symm (hn x)
  have hone : ∀ {k : OperatorKind} {post : Expression}, (k = .le ∨ k = .lt) →
      ∀ x, .leaf x ∈ [HeuristicNode.leaf
        (invertOperands (layouts 0 [a, b] ++ post) (a.size - 1) (a.size + b.size - 1) k)] →
      LeafShape domains extended x := by
    intro k post hk x hx
    simp only [List.mem_singleton, HeuristicNode.leaf.injEq] at hx
    rw [hx]
    exact hswap k hk _
  rintro (hs | ⟨operands', hs⟩) x hx
  · rw [layout_pair, simplifyNumericLeafNode, List.getLast?_concat] at hs
    rcases hkind with rfl | rfl | rfl
    · cases hs
    · cases hs
    · simp only [List.dropLast_concat] at hs
      exact hpair (.inl rfl) (by simp) x (mem_keepLinear hs hx)
  · have hget := getElem?_layout (node (.operator kind operands) [a, b])
      [.operator .not [(node (.operator kind operands) [a, b]).size - 1]]
    rw [layout_not, simplifyNumericLeafNode, List.getLast?_concat] at hs
    simp only [hget, root, ExprTree.args, ExpressionNode.withOperands, roots_pair,
      List.dropLast_concat] at hs
    rw [layout_pair] at hs
    simp only [List.dropLast_concat, List.append_assoc] at hs
    rcases hkind with rfl | rfl | rfl
    · exact hone (.inr rfl) x (mem_keepLinear hs hx)
    · exact hone (.inl rfl) x (mem_keepLinear hs hx)
    · exact hpair (.inr rfl) (by simp) x (mem_keepLinear hs hx)

theorem mem_disjunction {hs : List HeuristicExpression} (hx : .leaf x ∈ disjunction hs) :
    x = [.constant (.bool false)] ∨ ∃ h ∈ hs, .leaf x ∈ h := by
  match hs, hx with
  | [], hx => exact .inl (by simpa [disjunction] using hx)
  | [h], hx => exact .inr ⟨h, List.mem_cons_self, hx⟩
  | h₁ :: h₂ :: hs, hx =>
    have hdef : disjunction (h₁ :: h₂ :: hs) =
        (h₁ :: h₂ :: hs).flatten ++ [.or (h₁ :: h₂ :: hs).length] := rfl
    rw [hdef] at hx
    rcases List.mem_append.mp hx with hx | hx
    · exact .inr (List.mem_flatten.mp hx)
    · simp at hx

theorem mem_bothEqual {f1 f2 : Fluent} {o1 o2 : Object} (hx : .leaf x ∈ bothEqual f1 f2 o1 o2) :
    x = equalsObject f1 o1 ∨ x = equalsObject f2 o2 := by
  simpa [bothEqual] using hx

theorem objectDomain_eq {f : Fluent} {d : FluentDomain} (hd : extended[f.idx]? = some d)
    (hkind : d.kind = .object) : objectDomain extended f = some d.objects := by
  rw [objectDomain, hd, Option.bind_some, if_pos hkind]

open ExprTree in
/-- Rewriting a literal leaves leaves of these kinds. -/
theorem literal_shape {t : ExprTree}
    (hext : ∀ {i : ℕ} {d : FluentDomain}, domains[i]? = some d → extended[i]? = some d)
    (ht : t.Literal domains) (hwf : t.wellFormed = true) (hproper : t.proper = true)
    (hs : simplifyLeaf .python extended (t.layout 0) disable = some r) :
    ∀ x, .leaf x ∈ r.getD [.leaf (t.layout 0)] → LeafShape domains extended x := by
  have hkept : LeafShape domains extended (t.layout 0) → r = none →
      ∀ x, .leaf x ∈ r.getD [.leaf (t.layout 0)] → LeafShape domains extended x := by
    rintro hshape rfl x hx
    rw [Option.getD_none, List.mem_singleton, HeuristicNode.leaf.injEq] at hx
    exact hx ▸ hshape
  have hpairs : ∀ {a b : ExprTree}, wellFormeds [a, b] = true → propers [a, b] = true →
      (a.wellFormed = true ∧ b.wellFormed = true) ∧ a.proper = true ∧ b.proper = true := by
    intro a b hw hp
    exact ⟨wellFormeds_pair.mp hw, by simpa [propers] using hp⟩
  -- what a numeric literal is rewritten to
  have hnumeric : NumericLeaf domains extended (t.layout 0) →
      (∀ h, simplifyNumericLeafNode .python (t.layout 0) = some h →
        ∀ x, .leaf x ∈ h → LeafShape domains extended x) →
      ∀ x, .leaf x ∈ r.getD [.leaf (t.layout 0)] → LeafShape domains extended x := by
    intro hshape hsimp
    rw [simplifyLeaf, if_neg (by simp [hshape.plain]), hshape.numeric] at hs
    cases disable with
    | true => exact hkept (.numeric hshape) (Option.some.inj hs).symm
    | false =>
      obtain rfl : simplifyNumericLeafNode .python (t.layout 0) = r := Option.some.inj hs
      cases hn : simplifyNumericLeafNode .python (t.layout 0) with
      | none => exact fun x hx => hkept (.numeric hshape) hn x (by rw [hn]; exact hx)
      | some h => exact hsimp h hn
  have hobjects : ∀ {hs : List HeuristicExpression}, r = some (disjunction hs) →
      (∀ h ∈ hs, ∀ x, .leaf x ∈ h → LeafShape domains extended x) →
      ∀ x, .leaf x ∈ r.getD [.leaf (t.layout 0)] → LeafShape domains extended x := by
    rintro hs rfl hall x hx
    rcases mem_disjunction hx with rfl | ⟨h, hh, hx⟩
    · exact .false
    · exact hall h hh x hx
  cases ht with
  | false => exact hkept .false (Option.some.inj hs).symm
  | interpreted hif =>
    rw [simplifyLeaf, if_pos hif] at hs
    exact hkept (.interpreted hif) (Option.some.inj hs).symm
  | atom ht =>
    cases ht with
    | fluent hd hkind => exact hkept (.fluent hd hkind) (Option.some.inj hs).symm
    | compare hkind ha hb =>
      rw [wellFormed, Bool.and_eq_true] at hwf
      rw [proper, Bool.and_eq_true] at hproper
      obtain ⟨hwfs, hpropers⟩ := hpairs hwf.2 hproper.2
      exact hnumeric (numericLeaf_compare _ hext hkind ha hb hwfs hpropers).1 fun h hh =>
        simplifyNumeric_shape hext hkind ha hb hwfs hpropers (.inl hh)
    | @equalsObject f d o operands hd hkind =>
      have hr : r = none := by
        have hobj : isNumericLeafExpression extended
            [.fluent f, .constant (.object o), .operator .eq [0, 1]] =
            some false := by
          simp [isNumericLeafExpression, isNumericOperator, isObjectTyped, isObjectTypedOperand,
            List.getElem?_map, hext hd, hkind]
        have hlayout : (node (.operator .eq operands) [node (.fluent f) [],
            node (.constant (.object o)) []]).layout 0 =
            [.fluent f, .constant (.object o), .operator .eq [0, 1]] := rfl
        rw [hlayout, simplifyLeaf, if_neg (by simp [hasInterpretedFunction]), hobj] at hs
        exact (Option.some.inj hs).symm
      exact hkept (.equalsObject o hd hkind) hr
    | @equalFluents f g d d' operands hd hkind hd' hkind' =>
      have hobj : isNumericLeafExpression extended [.fluent f, .fluent g, .operator .eq [0, 1]] =
          some false := by
        simp [isNumericLeafExpression, isNumericOperator, isObjectTyped, isObjectTypedOperand,
          List.getElem?_map, hext hd, hkind]
      have hlayout : (node (.operator .eq operands) [node (.fluent f) [], node (.fluent g) []]).layout 0 =
          [.fluent f, .fluent g, .operator .eq [0, 1]] := rfl
      rw [hlayout, simplifyLeaf, if_neg (by simp [hasInterpretedFunction]), hobj] at hs
      have hr : simplifyObjectEquality extended [.fluent f, .fluent g, .operator .eq [0, 1]] = r :=
        Option.some.inj hs
      simp only [simplifyObjectEquality, objectDomain_eq (hext hd) hkind,
        objectDomain_eq (hext hd') hkind'] at hr
      refine hobjects hr.symm fun h hh x hx => ?_
      obtain ⟨o, -, rfl⟩ := List.mem_map.mp hh
      rcases mem_bothEqual hx with rfl | rfl
      · exact .equalsObject o hd hkind
      · exact .equalsObject o hd' hkind'
  | @not u operands ht =>
    cases ht with
    | fluent hd hkind => exact hkept (.notFluent hd hkind) (Option.some.inj hs).symm
    | compare hkind ha hb =>
      rw [wellFormed, Bool.and_eq_true, wellFormeds, Bool.and_eq_true, wellFormed, Bool.and_eq_true] at hwf
      rw [proper, Bool.and_eq_true, propers, Bool.and_eq_true, proper, Bool.and_eq_true] at hproper
      obtain ⟨hwfs, hpropers⟩ := hpairs hwf.2.1.2 hproper.2.1.2
      exact hnumeric ((numericLeaf_compare _ hext hkind ha hb hwfs hpropers).2 _) fun h hh =>
        simplifyNumeric_shape hext hkind ha hb hwfs hpropers (.inr ⟨_, hh⟩)
    | @equalsObject f d o operands' hd hkind =>
      have hobj : isNumericLeafExpression extended
          [.fluent f, .constant (.object o), .operator .eq [0, 1], .operator .not [2]] = some false := by
        simp [isNumericLeafExpression, isNumericOperator, isObjectTyped, isObjectTypedOperand,
          List.getElem?_map, hext hd, hkind]
      have hlayout : (node (.operator .not operands) [node (.operator .eq operands')
          [node (.fluent f) [], node (.constant (.object o)) []]]).layout 0 =
          [.fluent f, .constant (.object o), .operator .eq [0, 1], .operator .not [2]] := rfl
      rw [hlayout, simplifyLeaf, if_neg (by simp [hasInterpretedFunction]), hobj] at hs
      simp only [simplifyFluentNotEqualsObject, objectDomain_eq (hext hd) hkind] at hs
      refine hobjects (Option.some.inj hs).symm fun h hh x hx => ?_
      obtain ⟨p, -, rfl⟩ := List.mem_map.mp hh
      rw [List.mem_singleton, HeuristicNode.leaf.injEq] at hx
      exact hx ▸ .equalsObject p hd hkind
    | @equalFluents f g d d' operands' hd hkind hd' hkind' =>
      have hobj : isNumericLeafExpression extended
          [.fluent f, .fluent g, .operator .eq [0, 1], .operator .not [2]] = some false := by
        simp [isNumericLeafExpression, isNumericOperator, isObjectTyped, isObjectTypedOperand,
          List.getElem?_map, hext hd, hkind]
      have hlayout : (node (.operator .not operands) [node (.operator .eq operands')
          [node (.fluent f) [], node (.fluent g) []]]).layout 0 =
          [.fluent f, .fluent g, .operator .eq [0, 1], .operator .not [2]] := rfl
      rw [hlayout, simplifyLeaf, if_neg (by simp [hasInterpretedFunction]), hobj] at hs
      have hr : simplifyObjectEquality extended
          [.fluent f, .fluent g, .operator .eq [0, 1], .operator .not [2]] = r := Option.some.inj hs
      simp only [simplifyObjectEquality, objectDomain_eq (hext hd) hkind,
        objectDomain_eq (hext hd') hkind'] at hr
      refine hobjects hr.symm fun h hh x hx => ?_
      obtain ⟨o1, -, hh⟩ := List.mem_flatMap.mp hh
      obtain ⟨o2, -, rfl⟩ := List.mem_map.mp hh
      rcases mem_bothEqual hx with rfl | rfl
      · exact .equalsObject o1 hd hkind
      · exact .equalsObject o2 hd' hkind'

/-- The leaves of a rewritten condition are those its leaves are rewritten to. -/
theorem leaf_of_simplifyCondition {P : Expression → Prop} {h h' : HeuristicExpression}
    (hs : simplifyCondition .python extended disable h = some h')
    (hleaf : ∀ e, .leaf e ∈ h → ∀ r, simplifyLeaf .python extended e disable = some r →
      ∀ x, .leaf x ∈ r.getD [.leaf e] → P x) : ∀ x, .leaf x ∈ h' → P x := by
  induction h generalizing h' with
  | nil =>
    obtain rfl := Option.some.inj hs
    exact fun x hx => by cases hx
  | cons node h ih =>
    obtain ⟨new, rest, hnew, hrest, rfl⟩ := simplifyCondition_cons.mp hs
    intro x hx
    rcases List.mem_append.mp hx with hx | hx
    · cases node with
      | leaf e => exact hleaf e List.mem_cons_self new hnew x hx
      | and | or =>
        obtain rfl := Option.some.inj hnew
        simp at hx
    · exact ih hrest (fun e he => hleaf e (List.mem_cons_of_mem _ he)) x hx

namespace ExprTree

/-- The leaves of a converted condition are literals. -/
theorem exists_literal (t : ExprTree) : t.Supported domains → t.wellFormed = true → t.proper = true →
    ∀ e, .leaf e ∈ t.heuristic → ∃ u : ExprTree, e = u.layout 0 ∧ u.Literal domains ∧
      u.wellFormed = true ∧ u.proper = true := by
  induction t using ExprTree.rec (motive_2 := fun ts => (∀ t ∈ ts, t.Supported domains) →
    wellFormeds ts = true → propers ts = true → ∀ e, .leaf e ∈ (heuristics ts).flatten →
      ∃ u : ExprTree, e = u.layout 0 ∧ u.Literal domains ∧ u.wellFormed = true ∧ u.proper = true) with
  | node e args ih =>
    intro hsup hwf hproper x hx
    have hconnective : ∀ {kind operands n}, e = .operator kind operands → (∀ t ∈ args, t.Supported domains) →
        (∀ y, n ≠ HeuristicNode.leaf y) → .leaf x ∈ (heuristics args).reverse.flatten ++ [n] →
        ∃ u : ExprTree, x = u.layout 0 ∧ u.Literal domains ∧ u.wellFormed = true ∧ u.proper = true := by
      rintro kind operands n rfl hargs hn hx
      rw [wellFormed, Bool.and_eq_true] at hwf
      rw [proper, Bool.and_eq_true] at hproper
      refine ih hargs hwf.2 hproper.2 x ?_
      rcases List.mem_append.mp hx with hx | hx
      · simpa using hx
      · exact absurd (List.mem_singleton.mp hx).symm (hn x)
    cases hsup with
    | true => simp [heuristic] at hx
    | and hargs => exact hconnective (n := .and args.length) rfl hargs (by simp) hx
    | or hargs => exact hconnective (n := .or args.length) rfl hargs (by simp) hx
    | literal ht hroot =>
      have hleaf : .leaf x ∈ [HeuristicNode.leaf ((node e args).layout 0)] → ∃ u : ExprTree,
          x = u.layout 0 ∧ u.Literal domains ∧ u.wellFormed = true ∧ u.proper = true := by
        intro hx
        rw [List.mem_singleton, HeuristicNode.leaf.injEq] at hx
        exact ⟨_, hx, ht, hwf, hproper⟩
      cases e with
      | operator kind operands =>
        cases kind with
        | and => exact absurd rfl (hroot operands).1
        | or => exact absurd rfl (hroot operands).2
        | _ => exact hleaf hx
      | constant v =>
        cases v with
        | bool b =>
          cases b with
          | true => simp [heuristic] at hx
          | false => exact hleaf hx
        | num | object => exact hleaf hx
      | fluent | interpretedFunction => exact hleaf hx
  | nil _ _ _ e he => cases he
  | cons t ts ih ihs hsup hwf hproper e he =>
    rw [wellFormeds, Bool.and_eq_true] at hwf
    rw [propers, Bool.and_eq_true] at hproper
    rw [heuristics, List.flatten_cons, List.mem_append] at he
    rcases he with he | he
    · exact ih (hsup t List.mem_cons_self) hwf.1 hproper.1 e he
    · exact ihs (fun u hu => hsup u (List.mem_cons_of_mem t hu)) hwf.2 hproper.2 e he

/-- The leaves of a condition, once rewritten. -/
theorem Condition.leafShape [Callables] {t : ExprTree} {h' : HeuristicExpression}
    (ht : t.Condition domains)
    (hext : ∀ {i : ℕ} {d : FluentDomain}, domains[i]? = some d → extended[i]? = some d)
    (hs : simplifyCondition .python extended disable t.heuristic = some h') :
    ∀ x, .leaf x ∈ h' → LeafShape domains extended x := by
  refine leaf_of_simplifyCondition hs fun e he r hr => ?_
  obtain ⟨u, rfl, hu, hwf, hproper⟩ := t.exists_literal ht.supported ht.wellFormed ht.proper e he
  exact literal_shape hext hu hwf hproper hr

end ExprTree

end Shapes

end TamerLite
