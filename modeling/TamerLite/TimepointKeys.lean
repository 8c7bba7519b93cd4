import Mathlib.Data.List.Nodup
import TamerLite.SearchSpace

/-! The keys under which both cores keep timepoints in their temporal networks,
and when those of a path are distinct. -/

namespace TamerLite

/-! ### Packed integers -/

/-- `pack_u32`: the higher and the lower half of the result. -/
def packU32 (a b : UInt32) : UInt64 := (a.toUInt64 <<< 32) ||| b.toUInt64

/-- `unpack_u64`. -/
def unpackU64 (x : UInt64) : UInt32 × UInt32 := ((x >>> 32).toUInt32, (x &&& 0xFFFFFFFF).toUInt32)

theorem toNat_packU32 (a b : UInt32) : (packU32 a b).toNat = a.toNat * 2 ^ 32 + b.toNat := by
  have ha := a.toNat_lt
  have hb := b.toNat_lt
  have hshift : (a.toUInt64 <<< 32).toNat = a.toNat <<< 32 := by
    rw [UInt64.toNat_shiftLeft, UInt32.toNat_toUInt64, Nat.mod_eq_of_lt]
    · rfl
    · change a.toNat <<< 32 < 2 ^ 64
      rw [Nat.shiftLeft_eq]
      omega
  rw [packU32, UInt64.toNat_or, hshift, UInt32.toNat_toUInt64, ← Nat.shiftLeft_add_eq_or_of_lt hb,
    Nat.shiftLeft_eq]

theorem unpackU64_packU32 (a b : UInt32) : unpackU64 (packU32 a b) = (a, b) := by
  have ha := a.toNat_lt
  have hb := b.toNat_lt
  have hp := toNat_packU32 a b
  refine Prod.ext (UInt32.toNat_inj.mp ?_) (UInt32.toNat_inj.mp ?_)
  · have hhigh : (packU32 a b >>> 32).toNat = a.toNat := by
      rw [UInt64.toNat_shiftRight, hp]
      change (a.toNat * 2 ^ 32 + b.toNat) >>> 32 = a.toNat
      rw [Nat.shiftRight_eq_div_pow]
      omega
    rw [unpackU64, UInt64.toNat_toUInt32, hhigh]
    exact Nat.mod_eq_of_lt ha
  · have hlow : (packU32 a b &&& 0xFFFFFFFF).toNat = b.toNat := by
      rw [UInt64.toNat_and, hp]
      change (a.toNat * 2 ^ 32 + b.toNat) &&& (2 ^ 32 - 1) = b.toNat
      rw [Nat.and_two_pow_sub_one_eq_mod]
      omega
    rw [unpackU64, UInt64.toNat_toUInt32, hlow]
    exact Nat.mod_eq_of_lt hb

theorem packU32_inj {a b c d : UInt32} : packU32 a b = packU32 c d ↔ a = c ∧ b = d := by
  refine ⟨fun h => ?_, fun h => by rw [h.1, h.2]⟩
  have hu := congrArg unpackU64 h
  rw [unpackU64_packU32, unpackU64_packU32] at hu
  exact Prod.mk.inj hu

/-! ### The numbers of the kinds of timepoints -/

/-- The fields of the interpreter that packing reads, a map's latest entry first. -/
structure TNInterpreter where
  actionsIds : List ((Action × Bool) × UInt32)
  eventsIds : List ((Action × ℕ) × UInt32)
  startPlanId : UInt64
  endPlanId : UInt64

/-- Inserts each key under the next free number. -/
def insertIds {κ : Type} : List κ → List (κ × UInt32) × UInt32 → List (κ × UInt32) × UInt32
  | [], ids => ids
  | k :: ks, (ids, nextId) => insertIds ks ((k, nextId) :: ids, nextId + 1)

/-- `TNInterpreter::new`, on the entries of the map of events in whatever order
the map gives them. -/
def TNInterpreter.new (actions : List Action) (events : List (Action × List (Timing × Event))) :
    TNInterpreter :=
  let actionsIds := insertIds (actions.flatMap fun a => [(a, true), (a, false)]) ([], 3)
  let eventsIds := insertIds (events.flatMap fun p => p.2.map fun te => (p.1, te.2.pos))
    ([], actionsIds.2)
  ⟨actionsIds.1, eventsIds.1, 1, 2⟩

namespace TNInterpreter

/-- `get_action_id`; `none` where it panics. -/
def getActionId (i : TNInterpreter) (action : Action) (isStart : Bool) (id : UInt32) : Option UInt64 :=
  (i.actionsIds.lookup (action, isStart)).map (packU32 · id)

/-- `get_event_id`; `none` where it panics. -/
def getEventId (i : TNInterpreter) (action : Action) (pos : ℕ) (id : UInt32) : Option UInt64 :=
  (i.eventsIds.lookup (action, pos)).map (packU32 · id)

end TNInterpreter

theorem insertIds_eq {κ : Type} (ks : List κ) (ids : List (κ × UInt32)) (n : ℕ) :
    insertIds ks (ids, UInt32.ofNat n) =
      ((ks.zipIdx n).reverse.map (fun p => (p.1, UInt32.ofNat p.2)) ++ ids,
        UInt32.ofNat (n + ks.length)) := by
  induction ks generalizing ids n with
  | nil => rfl
  | cons k ks ih =>
    have hnext : UInt32.ofNat n + 1 = UInt32.ofNat (n + 1) := (UInt32.ofNat_add n 1).symm
    rw [insertIds, hnext, ih]
    simp [List.zipIdx_cons, Nat.add_comm, Nat.add_left_comm]

theorem mem_insertIds {κ : Type} {ks : List κ} {n : ℕ} {k : κ} {v : UInt32}
    (h : (k, v) ∈ (insertIds ks ([], UInt32.ofNat n)).1) :
    ∃ j, n ≤ j ∧ j < n + ks.length ∧ v = UInt32.ofNat j ∧ ks[j - n]? = some k := by
  rw [insertIds_eq, List.append_nil, List.mem_map] at h
  obtain ⟨⟨k', j⟩, hmem, heq⟩ := h
  obtain ⟨rfl, rfl⟩ := Prod.mk.inj heq
  rw [List.mem_reverse, List.mk_mem_zipIdx_iff_le_and_getElem?_sub] at hmem
  obtain ⟨hle, hget⟩ := hmem
  have hlt := (List.getElem?_eq_some_iff.mp hget).1
  exact ⟨j, hle, by omega, rfl, hget⟩

theorem ofNat_inj {m n : ℕ} (hm : m < 2 ^ 32) (hn : n < 2 ^ 32)
    (h : UInt32.ofNat m = UInt32.ofNat n) : m = n := by
  have hmod := congrArg UInt32.toNat h
  rwa [UInt32.toNat_ofNat', UInt32.toNat_ofNat', Nat.mod_eq_of_lt hm, Nat.mod_eq_of_lt hn] at hmod

theorem mem_of_lookup {κ ν : Type} [BEq κ] [LawfulBEq κ] {ids : List (κ × ν)} {k : κ} {v : ν}
    (h : ids.lookup k = some v) : (k, v) ∈ ids := by
  obtain ⟨l₁, l₂, rfl, -⟩ := List.lookup_eq_some_iff.mp h
  simp

theorem lookup_isSome_of_mem {κ ν : Type} [BEq κ] [LawfulBEq κ] {ids : List (κ × ν)} {k : κ} {v : ν}
    (h : (k, v) ∈ ids) : ∃ w, ids.lookup k = some w := by
  cases hl : ids.lookup k with
  | some w => exact ⟨w, rfl⟩
  | none =>
    have hne := List.lookup_eq_none_iff.mp hl (k, v) h
    simp at hne

/-- Where the numbers do not wrap, each belongs to one key. -/
theorem insertIds_inj {κ : Type} [BEq κ] [LawfulBEq κ] {ks : List κ} {n : ℕ} (hfit : n + ks.length ≤ 2 ^ 32)
    {k k' : κ} {v : UInt32} (h : (insertIds ks ([], UInt32.ofNat n)).1.lookup k = some v)
    (h' : (insertIds ks ([], UInt32.ofNat n)).1.lookup k' = some v) : k = k' := by
  obtain ⟨j, hj, hj', rfl, hk⟩ := mem_insertIds (mem_of_lookup h)
  obtain ⟨m, hm, hm', hv, hk'⟩ := mem_insertIds (mem_of_lookup h')
  obtain rfl := ofNat_inj (by omega) (by omega) hv
  exact Option.some.inj (hk.symm.trans hk')

theorem exists_insertIds {κ : Type} [BEq κ] [LawfulBEq κ] {ks : List κ} {k : κ} (n : ℕ) (hk : k ∈ ks) :
    ∃ v, (insertIds ks ([], UInt32.ofNat n)).1.lookup k = some v := by
  obtain ⟨j, hj⟩ := List.mem_iff_getElem?.mp hk
  refine lookup_isSome_of_mem (v := UInt32.ofNat (n + j)) ?_
  rw [insertIds_eq, List.append_nil, List.mem_map]
  refine ⟨(k, n + j), ?_, rfl⟩
  rw [List.mem_reverse, List.mk_mem_zipIdx_iff_le_and_getElem?_sub]
  exact ⟨by omega, by rwa [Nat.add_sub_cancel_left]⟩

/-- The actions and the entries of the map of events that an encoding passes with
its search space, few enough to be numbered in 32 bits. -/
structure TNInterpreter.Interprets (ss : SearchSpace) (actions : List Action)
    (events : List (Action × List (Timing × Event))) : Prop where
  listed : ∀ {a le}, ss.events a = some le → a ∈ actions ∧ (a, le) ∈ events
  fits : 3 + 2 * actions.length + (events.map fun p => p.2.length).sum ≤ 2 ^ 32

namespace TNInterpreter

/-- What packing needs of the numbers: each belongs to one kind of timepoint, and
none is that of the plan's start and end. -/
structure Separates (i : TNInterpreter) : Prop where
  actions : ∀ {k k' v}, i.actionsIds.lookup k = some v → i.actionsIds.lookup k' = some v → k = k'
  events : ∀ {k k' v}, i.eventsIds.lookup k = some v → i.eventsIds.lookup k' = some v → k = k'
  apart : ∀ {k k' v}, i.actionsIds.lookup k = some v → i.eventsIds.lookup k' ≠ some v
  actions_pos : ∀ {k v}, i.actionsIds.lookup k = some v → v ≠ 0
  events_pos : ∀ {k v}, i.eventsIds.lookup k = some v → v ≠ 0
  startPlan : i.startPlanId = 1
  endPlan : i.endPlanId = 2

variable {ss : SearchSpace} {actions : List Action} {events : List (Action × List (Timing × Event))}

theorem new_eq : TNInterpreter.new actions events =
    ⟨(insertIds (actions.flatMap fun a => [(a, true), (a, false)]) ([], UInt32.ofNat 3)).1,
      (insertIds (events.flatMap fun p => p.2.map fun te => (p.1, te.2.pos))
        ([], UInt32.ofNat (3 + 2 * actions.length))).1, 1, 2⟩ := by
  have hlen : (actions.flatMap fun a => [(a, true), (a, false)]).length = 2 * actions.length := by
    simp [List.length_flatMap, Nat.mul_comm]
  have hthree : (3 : UInt32) = UInt32.ofNat 3 := rfl
  rw [TNInterpreter.new, hthree, insertIds_eq, hlen]

theorem Interprets.separates (h : Interprets ss actions events) :
    (TNInterpreter.new actions events).Separates := by
  have hfit := h.fits
  have hact : (actions.flatMap fun a => [(a, true), (a, false)]).length = 2 * actions.length := by
    simp [List.length_flatMap, Nat.mul_comm]
  have hev : (events.flatMap fun p => p.2.map fun te => (p.1, te.2.pos)).length =
      (events.map fun p => p.2.length).sum := by
    simp [List.length_flatMap]
  have hpos : ∀ {j : ℕ}, 3 ≤ j → j < 2 ^ 32 → UInt32.ofNat j ≠ 0 := by
    intro j hj hlt hzero
    have hz : UInt32.ofNat j = UInt32.ofNat 0 := hzero
    have := ofNat_inj hlt (by omega) hz
    omega
  rw [new_eq]
  refine ⟨fun hk hk' => ?_, fun hk hk' => ?_, fun hk hk' => ?_, fun hk => ?_, fun hk => ?_, rfl, rfl⟩
  · refine insertIds_inj ?_ hk hk'
    omega
  · refine insertIds_inj ?_ hk hk'
    omega
  · obtain ⟨j, hj, hj', rfl, -⟩ := mem_insertIds (mem_of_lookup hk)
    obtain ⟨m, hm, hm', hv, -⟩ := mem_insertIds (mem_of_lookup hk')
    have := ofNat_inj (by omega) (by omega) hv
    omega
  · obtain ⟨j, hj, hj', rfl, -⟩ := mem_insertIds (mem_of_lookup hk)
    exact hpos hj (by omega)
  · obtain ⟨j, hj, hj', rfl, -⟩ := mem_insertIds (mem_of_lookup hk)
    exact hpos (by omega) (by omega)

/-- No key of an action that can be opened makes the interpreter panic. -/
theorem Interprets.known (h : Interprets ss actions events) {a : Action} {le : List (Timing × Event)}
    (hle : ss.events a = some le) :
    (∀ b, ∃ v, (TNInterpreter.new actions events).actionsIds.lookup (a, b) = some v) ∧
    ∀ te ∈ le, ∃ v, (TNInterpreter.new actions events).eventsIds.lookup (a, te.2.pos) = some v := by
  obtain ⟨ha, he⟩ := h.listed hle
  rw [new_eq]
  refine ⟨fun b => exists_insertIds 3 ?_, fun te hte => exists_insertIds _ ?_⟩
  · rw [List.mem_flatMap]
    exact ⟨a, ha, by cases b <;> simp⟩
  · rw [List.mem_flatMap]
    exact ⟨(a, le), he, List.mem_map.mpr ⟨te, hte, rfl⟩⟩

end TNInterpreter

/-! ### Keys -/

/-- The keys of the Python network: two names, and tuples in which `True` is 1
and `False` is 0. -/
inductive PythonKey
  | name (name : String)
  | tuple (action : Action) (second : ℕ) (id : ℕ)
deriving DecidableEq

namespace Timepoint

def pythonKey : Timepoint → PythonKey
  | startPlan => .name "start_plan"
  | endPlan => .name "end_plan"
  | anchor action start id => .tuple action start.toNat id
  | event action pos id => .tuple action pos id

/-- The key of the Rust network, whose ids are what 32 bits keep of a number. -/
def rustKey (i : TNInterpreter) : Timepoint → Option UInt64
  | startPlan => some i.startPlanId
  | endPlan => some i.endPlanId
  | anchor action start id => i.getActionId action start (UInt32.ofNat id)
  | event action pos id => i.getEventId action pos (UInt32.ofNat id)

/-- The timepoint with what 32 bits keep of its id. -/
def wrap : Timepoint → Timepoint
  | startPlan => .startPlan
  | endPlan => .endPlan
  | anchor action start id => .anchor action start (id % 2 ^ 32)
  | event action pos id => .event action pos (id % 2 ^ 32)

/-- The halves of a key of the Rust network. -/
def high (i : TNInterpreter) : Timepoint → Option UInt32
  | startPlan => some 0
  | endPlan => some 0
  | anchor action start _ => i.actionsIds.lookup (action, start)
  | event action pos _ => i.eventsIds.lookup (action, pos)

def low : Timepoint → UInt32
  | startPlan => 1
  | endPlan => 2
  | anchor _ _ id => UInt32.ofNat id
  | event _ _ id => UInt32.ofNat id

variable {i : TNInterpreter} {x y : Timepoint} {k : UInt64}

theorem rustKey_eq (hi : i.Separates) (x : Timepoint) :
    rustKey i x = (high i x).map (packU32 · x.low) := by
  cases x with
  | startPlan => rw [rustKey, hi.startPlan]; rfl
  | endPlan => rw [rustKey, hi.endPlan]; rfl
  | anchor a b id => rfl
  | event a pos id => rfl

theorem ofNat_eq_iff {m n : ℕ} : UInt32.ofNat m = UInt32.ofNat n ↔ m % 2 ^ 32 = n % 2 ^ 32 := by
  rw [← UInt32.toNat_inj, UInt32.toNat_ofNat', UInt32.toNat_ofNat']

/-- The higher half tells the kind of the timepoint, the lower one its id. -/
theorem wrap_eq_of_halves (hi : i.Separates) {v : UInt32} (hx : high i x = some v)
    (hy : high i y = some v) (hlow : x.low = y.low) : x.wrap = y.wrap := by
  cases x with
  | startPlan =>
    obtain rfl := Option.some.inj hx
    cases y with
    | startPlan => rfl
    | endPlan => exact absurd hlow (by decide)
    | anchor a b id => exact absurd rfl (hi.actions_pos hy)
    | event a pos id => exact absurd rfl (hi.events_pos hy)
  | endPlan =>
    obtain rfl := Option.some.inj hx
    cases y with
    | startPlan => exact absurd hlow (by decide)
    | endPlan => rfl
    | anchor a b id => exact absurd rfl (hi.actions_pos hy)
    | event a pos id => exact absurd rfl (hi.events_pos hy)
  | anchor a b id =>
    cases y with
    | startPlan => exact absurd (Option.some.inj hy).symm (hi.actions_pos hx)
    | endPlan => exact absurd (Option.some.inj hy).symm (hi.actions_pos hx)
    | anchor a' b' id' =>
      obtain ⟨rfl, rfl⟩ := Prod.mk.inj (hi.actions hx hy)
      rw [wrap, wrap, ofNat_eq_iff.mp hlow]
    | event a' pos' id' => exact absurd hy (hi.apart hx)
  | event a pos id =>
    cases y with
    | startPlan => exact absurd (Option.some.inj hy).symm (hi.events_pos hx)
    | endPlan => exact absurd (Option.some.inj hy).symm (hi.events_pos hx)
    | anchor a' b' id' => exact absurd hx (hi.apart hy)
    | event a' pos' id' =>
      obtain ⟨rfl, rfl⟩ := Prod.mk.inj (hi.events hx hy)
      rw [wrap, wrap, ofNat_eq_iff.mp hlow]

theorem rustKey_wrap (i : TNInterpreter) (x : Timepoint) : rustKey i x.wrap = rustKey i x := by
  have hid : ∀ id : ℕ, UInt32.ofNat (id % 2 ^ 32) = UInt32.ofNat id := fun id =>
    ofNat_eq_iff.mpr (Nat.mod_mod _ _)
  cases x with
  | startPlan => rfl
  | endPlan => rfl
  | anchor a b id => simp only [wrap, rustKey, hid]
  | event a pos id => simp only [wrap, rustKey, hid]

/-- Timepoints share a key of the Rust network when they differ in what 32 bits
lose of their ids, and in nothing else. -/
theorem rustKey_eq_iff (hi : i.Separates) (hx : (rustKey i x).isSome = true) :
    rustKey i x = rustKey i y ↔ x.wrap = y.wrap := by
  constructor
  · intro h
    obtain ⟨k, hk⟩ := Option.isSome_iff_exists.mp hx
    have hy := h.symm.trans hk
    rw [rustKey_eq hi] at hk hy
    obtain ⟨v, hv, rfl⟩ := Option.map_eq_some_iff.mp hk
    obtain ⟨w, hw, hpack⟩ := Option.map_eq_some_iff.mp hy
    obtain ⟨rfl, hlow⟩ := packU32_inj.mp hpack
    exact wrap_eq_of_halves hi hv hw hlow.symm
  · intro h
    rw [← rustKey_wrap, h, rustKey_wrap]

end Timepoint

/-! ### The timepoints of a path -/

/-- The instances of the actions on a path. The first event of an instance is
fired as it is opened, under the id after its own. -/
def instances (path : List (Action × ℕ × ℕ)) : List (Action × ℕ) :=
  path.filterMap fun p => if p.2.1 = 0 then some (p.1, p.2.2 - 1) else none

/-- The keys `_add_opening_constraints` makes for an instance. -/
def instanceTimepoints (ss : SearchSpace) (p : Action × ℕ) : List Timepoint :=
  .anchor p.1 true p.2 :: .anchor p.1 false p.2 ::
    ((ss.events p.1).getD []).mapIdx fun k te => .event te.2.action te.2.pos (p.2 + 1 + k)

/-- The keys `add_opening_constraints` makes for an instance, with its arithmetic. -/
def rustInstanceKeys (i : TNInterpreter) (ss : SearchSpace) (a : Action) (actionInstanceId : UInt32) :
    List (Option UInt64) :=
  i.getActionId a true actionInstanceId :: i.getActionId a false actionInstanceId ::
    ((ss.events a).getD []).mapIdx fun k te =>
      i.getEventId te.2.action te.2.pos (actionInstanceId + 1 + UInt32.ofNat k)

theorem rustInstanceKeys_eq (i : TNInterpreter) (ss : SearchSpace) (p : Action × ℕ) :
    rustInstanceKeys i ss p.1 (UInt32.ofNat p.2) =
      (instanceTimepoints ss p).map (Timepoint.rustKey i) := by
  rw [rustInstanceKeys, instanceTimepoints, List.map_cons, List.map_cons]
  refine congrArg₂ List.cons rfl (congrArg₂ List.cons rfl (List.ext_getElem? fun k => ?_))
  rw [List.getElem?_mapIdx, List.getElem?_map, List.getElem?_mapIdx, Option.map_map]
  refine congrArg (Option.map · _) (funext fun te => ?_)
  rw [Function.comp_apply, Timepoint.rustKey, UInt32.ofNat_add, UInt32.ofNat_add]
  rfl

/-- The timepoints of the actions on a state's path, if there is a network. -/
def timepoints (ss : SearchSpace) (s : State) : List Timepoint :=
  if ss.isTemporal then
    .startPlan :: .endPlan :: (instances s.path).flatMap (instanceTimepoints ss)
  else []

section Keys

variable {ss : SearchSpace} {p q : Action × ℕ} {x y : Timepoint} {l : List (Action × ℕ)}

def width (ss : SearchSpace) (a : Action) : ℕ := ((ss.events a).getD []).length

theorem instanceTimepoints_eq (ss : SearchSpace) (p : Action × ℕ) :
    instanceTimepoints ss p = .anchor p.1 true p.2 :: .anchor p.1 false p.2 ::
      (List.range (width ss p.1)).map fun k => .event p.1 k (p.2 + 1 + k) := by
  rw [instanceTimepoints, width]
  congr 2
  cases hle : ss.events p.1 with
  | none => rfl
  | some le =>
    refine List.ext_getElem? fun k => ?_
    rw [Option.getD_some, List.getElem?_mapIdx, List.getElem?_map]
    cases hte : le[k]? with
    | none =>
      have hk := List.getElem?_eq_none_iff.mp hte
      rw [List.getElem?_eq_none_iff.mpr (by simpa using hk)]
      rfl
    | some te =>
      have hk := (List.getElem?_eq_some_iff.mp hte).1
      obtain ⟨ha, hpos⟩ := (ss.events_numbered hle).2 hte
      rw [List.getElem?_range hk, Option.map_some, Option.map_some, ha, hpos]

theorem mem_instanceTimepoints : x ∈ instanceTimepoints ss p ↔
    (∃ b, x = .anchor p.1 b p.2) ∨ ∃ k < width ss p.1, x = .event p.1 k (p.2 + 1 + k) := by
  rw [instanceTimepoints_eq, List.mem_cons, List.mem_cons, List.mem_map, Bool.exists_bool]
  simp only [List.mem_range]
  constructor
  · rintro (rfl | rfl | ⟨k, hk, rfl⟩)
    · exact .inl (.inr rfl)
    · exact .inl (.inl rfl)
    · exact .inr ⟨k, hk, rfl⟩
  · rintro ((rfl | rfl) | ⟨k, hk, rfl⟩)
    · exact .inr (.inl rfl)
    · exact .inl rfl
    · exact .inr (.inr ⟨k, hk, rfl⟩)

/-- Keys are distinct when those of each instance are, and those of any two. -/
theorem nodup_keys {β : Type} (key : Timepoint → β) (hplan : key .startPlan ≠ key .endPlan)
    (hout : ∀ p ∈ l, ∀ x ∈ instanceTimepoints ss p, key .startPlan ≠ key x ∧ key .endPlan ≠ key x)
    (hin : ∀ p ∈ l, ((instanceTimepoints ss p).map key).Nodup)
    (hbetween : l.Pairwise fun p q =>
      ∀ x ∈ instanceTimepoints ss p, ∀ y ∈ instanceTimepoints ss q, key x ≠ key y) :
    ((.startPlan :: .endPlan :: l.flatMap (instanceTimepoints ss)).map key).Nodup := by
  rw [List.map_cons, List.map_cons, List.nodup_cons, List.nodup_cons, List.map_flatMap]
  refine ⟨?_, ?_, List.nodup_flatMap.mpr ⟨hin, hbetween.imp fun {p q} h => ?_⟩⟩
  · rw [List.mem_cons, not_or, List.mem_flatMap]
    refine ⟨hplan, fun ⟨p, hp, hx⟩ => ?_⟩
    obtain ⟨x, hx, heq⟩ := List.mem_map.mp hx
    exact (hout p hp x hx).1 heq.symm
  · rw [List.mem_flatMap]
    rintro ⟨p, hp, hx⟩
    obtain ⟨x, hx, heq⟩ := List.mem_map.mp hx
    exact (hout p hp x hx).2 heq.symm
  · intro k hk hk'
    obtain ⟨x, hx, rfl⟩ := List.mem_map.mp hk
    obtain ⟨y, hy, heq⟩ := List.mem_map.mp hk'
    exact h x hx y hy heq.symm

theorem pythonKey_id (hx : x ∈ instanceTimepoints ss p) : ∃ second id,
    x.pythonKey = .tuple p.1 second id ∧ p.2 ≤ id ∧ id < p.2 + 1 + width ss p.1 := by
  rcases mem_instanceTimepoints.mp hx with ⟨b, rfl⟩ | ⟨k, hk, rfl⟩
  · exact ⟨b.toNat, p.2, rfl, le_rfl, by omega⟩
  · exact ⟨k, p.2 + 1 + k, rfl, by omega, by omega⟩

/-- What the counter keeps between the instances of a path. -/
def Spaced (ss : SearchSpace) (l : List (Action × ℕ)) : Prop :=
  l.Pairwise fun p q => p.2 + 1 + width ss p.1 ≤ q.2

theorem pythonKeys_nodup (h : Spaced ss l) :
    ((.startPlan :: .endPlan :: l.flatMap (instanceTimepoints ss)).map Timepoint.pythonKey).Nodup := by
  refine nodup_keys _ (by decide) (fun p _ x hx => ?_) (fun p _ => ?_) (h.imp fun {p q} hpq x hx y hy => ?_)
  · obtain ⟨m, id, hkey, -, -⟩ := pythonKey_id hx
    rw [hkey]
    exact ⟨nofun, nofun⟩
  · rw [instanceTimepoints_eq, List.map_cons, List.map_cons, List.map_map, List.nodup_cons,
      List.nodup_cons, List.mem_cons, not_or]
    have hlater : ∀ m, PythonKey.tuple p.1 m p.2 ∉ (List.range (width ss p.1)).map
        (Timepoint.pythonKey ∘ fun k => .event p.1 k (p.2 + 1 + k)) := by
      intro m hm
      obtain ⟨k, -, hk⟩ := List.mem_map.mp hm
      have hid : p.2 + 1 + k = p.2 := (PythonKey.tuple.inj hk).2.2
      omega
    refine ⟨⟨nofun, hlater 1⟩, hlater 0, ?_⟩
    refine List.Nodup.map (fun k k' hk => ?_) List.nodup_range
    exact (PythonKey.tuple.inj hk).2.1
  · obtain ⟨m, id, hkey, -, hlt⟩ := pythonKey_id hx
    obtain ⟨n, id', hkey', hle, -⟩ := pythonKey_id hy
    rw [hkey, hkey']
    intro heq
    have hid := (PythonKey.tuple.inj heq).2.2
    omega

/-- Two instances of one action have not the same id in 32 bits. -/
def ApartIn32Bits (p q : Action × ℕ) : Prop := p.1 = q.1 → p.2 % 2 ^ 32 ≠ q.2 % 2 ^ 32

theorem wrap_ne (h : ApartIn32Bits p q) (hx : x ∈ instanceTimepoints ss p)
    (hy : y ∈ instanceTimepoints ss q) : x.wrap ≠ y.wrap := by
  intro heq
  rcases mem_instanceTimepoints.mp hx with ⟨b, rfl⟩ | ⟨k, hk, rfl⟩
  · rcases mem_instanceTimepoints.mp hy with ⟨b', rfl⟩ | ⟨k', hk', rfl⟩
    · obtain ⟨ha, -, hid⟩ := Timepoint.anchor.inj heq
      exact h ha hid
    · exact absurd heq nofun
  · rcases mem_instanceTimepoints.mp hy with ⟨b', rfl⟩ | ⟨k', hk', rfl⟩
    · exact absurd heq nofun
    · obtain ⟨ha, rfl, hid⟩ := Timepoint.event.inj heq
      exact h ha (by omega)

variable (ss) in
theorem wraps_nodup_iff :
    ((.startPlan :: .endPlan :: l.flatMap (instanceTimepoints ss)).map Timepoint.wrap).Nodup ↔
      l.Pairwise ApartIn32Bits := by
  constructor
  · intro h
    rw [List.map_cons, List.map_cons, List.nodup_cons, List.nodup_cons, List.map_flatMap,
      List.nodup_flatMap] at h
    refine h.2.2.2.imp fun {p q} hdis ha hid => ?_
    refine hdis (a := .anchor p.1 true (p.2 % 2 ^ 32)) ?_ ?_
    · exact List.mem_map.mpr ⟨_, mem_instanceTimepoints.mpr (.inl ⟨true, rfl⟩), rfl⟩
    · rw [ha, hid]
      exact List.mem_map.mpr ⟨_, mem_instanceTimepoints.mpr (.inl ⟨true, rfl⟩), rfl⟩
  · intro h
    refine nodup_keys _ (by decide) (fun p _ x hx => ?_) (fun p _ => ?_)
      (h.imp fun {p q} hpq x hx y hy => wrap_ne hpq hx hy)
    · rcases mem_instanceTimepoints.mp hx with ⟨b, rfl⟩ | ⟨k, hk, rfl⟩
      · exact ⟨nofun, nofun⟩
      · exact ⟨nofun, nofun⟩
    · rw [instanceTimepoints_eq, List.map_cons, List.map_cons, List.map_map, List.nodup_cons,
        List.nodup_cons, List.mem_cons, not_or]
      have hlater : ∀ b, Timepoint.wrap (.anchor p.1 b p.2) ∉ (List.range (width ss p.1)).map
          (Timepoint.wrap ∘ fun k => .event p.1 k (p.2 + 1 + k)) := by
        intro b hm
        obtain ⟨k, -, hk⟩ := List.mem_map.mp hm
        exact absurd hk nofun
      refine ⟨⟨fun hb => ?_, hlater true⟩, hlater false, ?_⟩
      · exact absurd (Timepoint.anchor.inj hb).2.1 (by decide)
      · refine List.Nodup.map (fun k k' hk => ?_) List.nodup_range
        exact (Timepoint.event.inj hk).2.1

theorem rustKey_isSome {actions : List Action} {events : List (Action × List (Timing × Event))}
    (hi : TNInterpreter.Interprets ss actions events) (hp : (ss.events p.1).isSome = true)
    (hx : x ∈ instanceTimepoints ss p) : (x.rustKey (.new actions events)).isSome = true := by
  obtain ⟨le, hle⟩ := Option.isSome_iff_exists.mp hp
  obtain ⟨hact, hev⟩ := hi.known hle
  rcases mem_instanceTimepoints.mp hx with ⟨b, rfl⟩ | ⟨k, hk, rfl⟩
  · obtain ⟨v, hv⟩ := hact b
    rw [Timepoint.rustKey, TNInterpreter.getActionId, hv]
    rfl
  · rw [width, hle, Option.getD_some] at hk
    obtain ⟨v, hv⟩ := hev le[k] (List.getElem_mem hk)
    rw [((ss.events_numbered hle).2 (List.getElem?_eq_getElem hk)).2] at hv
    rw [Timepoint.rustKey, TNInterpreter.getEventId, hv]
    rfl

/-- The keys of the Rust network are distinct exactly when the instances of each
action are told apart in 32 bits. -/
theorem rustKeys_nodup_iff {actions : List Action} {events : List (Action × List (Timing × Event))}
    (hi : TNInterpreter.Interprets ss actions events) (hl : ∀ p ∈ l, (ss.events p.1).isSome = true) :
    ((.startPlan :: .endPlan :: l.flatMap (instanceTimepoints ss)).map
      (Timepoint.rustKey (.new actions events))).Nodup ↔ l.Pairwise ApartIn32Bits := by
  rw [← wraps_nodup_iff ss, List.Nodup, List.Nodup, List.pairwise_map, List.pairwise_map]
  refine List.Pairwise.iff_of_mem fun {x y} hx _ => not_congr ?_
  refine Timepoint.rustKey_eq_iff hi.separates ?_
  rcases List.mem_cons.mp hx with rfl | hx
  · rfl
  rcases List.mem_cons.mp hx with rfl | hx
  · rfl
  · obtain ⟨p, hp, hx⟩ := List.mem_flatMap.mp hx
    exact rustKey_isSome hi (hl p hp) hx

end Keys

end TamerLite
