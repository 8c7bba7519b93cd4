import Mathlib.Data.Finset.Card
import Mathlib.Data.Finset.Dedup
import Mathlib.Tactic.Common
import TamerLite.Exploration

/-! Walks over a graph with a stack: a node is stacked when it is first seen, and
one that has left the stack has had its successors seen. -/

namespace Worklist

open Exploration

variable {α : Type*}

/-- What is still to be dealt with, and everything seen so far. -/
structure Walk (α : Type*) where
  stack : List α
  seen : Finset α

variable [DecidableEq α]

namespace Walk

def start (seeds : List α) : Walk α := ⟨seeds, seeds.toFinset⟩

def visit (w : Walk α) (x : α) : Walk α :=
  if x ∈ w.seen then w else ⟨x :: w.stack, insert x w.seen⟩

def visitAll (w : Walk α) (l : List α) : Walk α := l.foldl visit w

/-- What dealing with a node lowers, where nothing outside `U` is ever seen. -/
def remaining (U : Finset α) (w : Walk α) : ℕ := 2 * (U \ w.seen).card + w.stack.length

/-- A node that has left the stack has had its successors seen. -/
def Closed (next : α → List α) (w : Walk α) : Prop :=
  ∀ x ∈ w.seen, x ∉ w.stack → ∀ y ∈ next x, y ∈ w.seen

/-- A turn of the loop that sees all that can be reached. -/
def turn (next : α → List α) (w : Walk α) : Finset α ⊕ Walk α :=
  match w.stack with
  | [] => .inl w.seen
  | x :: stack => .inr (visitAll ⟨stack, w.seen⟩ (next x))

variable {w : Walk α} {l seeds : List α} {U : Finset α} {next : α → List α} {x : α}

theorem visit_cases (w : Walk α) (x : α) : x ∈ w.seen ∧ w.visit x = w ∨
    x ∉ w.seen ∧ w.visit x = ⟨x :: w.stack, insert x w.seen⟩ := by
  rw [visit]
  split_ifs with h
  · exact .inl ⟨h, rfl⟩
  · exact .inr ⟨h, rfl⟩

/-- Visiting nodes stacks those that are new. -/
theorem visitAll_spec (hU : ∀ x ∈ l, x ∈ U) :
    (∀ x, x ∈ (w.visitAll l).seen ↔ x ∈ w.seen ∨ x ∈ l) ∧
      (∀ x, x ∈ (w.visitAll l).stack ↔ x ∈ w.stack ∨ x ∈ l ∧ x ∉ w.seen) ∧
      (w.visitAll l).remaining U ≤ w.remaining U := by
  induction l generalizing w with
  | nil => simp [visitAll]
  | cons y l ih =>
    obtain ⟨hseen, hstack, hle⟩ := @ih (w.visit y) fun x hx => hU x (List.mem_cons_of_mem y hx)
    rw [visitAll, List.foldl_cons]
    rcases visit_cases w y with ⟨hmem, heq⟩ | ⟨hmem, heq⟩
    · rw [heq] at hseen hstack hle ⊢
      refine ⟨fun x => ?_, fun x => ?_, hle⟩
      · refine (hseen x).trans ⟨fun h => h.imp_right (List.mem_cons_of_mem y), ?_⟩
        rintro (h | h)
        · exact .inl h
        · rcases List.mem_cons.mp h with rfl | h
          · exact .inl hmem
          · exact .inr h
      · refine (hstack x).trans ⟨fun h => h.imp_right fun h => ⟨List.mem_cons_of_mem y h.1, h.2⟩, ?_⟩
        rintro (h | ⟨h, hnot⟩)
        · exact .inl h
        · rcases List.mem_cons.mp h with rfl | h
          · exact absurd hmem hnot
          · exact .inr ⟨h, hnot⟩
    · rw [heq] at hseen hstack hle ⊢
      refine ⟨fun x => ?_, fun x => ?_, hle.trans ?_⟩
      · rw [visitAll] at hseen
        rw [hseen, Finset.mem_insert, List.mem_cons]
        tauto
      · rw [visitAll] at hstack
        rw [hstack, List.mem_cons, Finset.mem_insert, List.mem_cons]
        constructor
        · rintro ((rfl | h) | ⟨h, hnot⟩)
          · exact .inr ⟨.inl rfl, hmem⟩
          · exact .inl h
          · exact .inr ⟨.inr h, fun h' => hnot (.inr h')⟩
        · rintro (h | ⟨rfl | h, hnot⟩)
          · exact .inl (.inr h)
          · exact .inl (.inl rfl)
          · by_cases hxy : x = y
            · exact .inl (.inl hxy)
            · exact .inr ⟨h, fun h' => h'.elim hxy hnot⟩
      · have hy : y ∈ U \ w.seen := Finset.mem_sdiff.mpr ⟨hU y List.mem_cons_self, hmem⟩
        have hcard : (U \ insert y w.seen).card + 1 = (U \ w.seen).card := by
          rw [Finset.sdiff_insert, Finset.card_erase_add_one hy]
        simp only [remaining, List.length_cons]
        omega

theorem closed_start : (start seeds).Closed next := fun _ hx hnot =>
  absurd (List.mem_toFinset.mp hx) hnot

/-- Dealing with a node keeps the walk closed. -/
theorem Closed.pop (h : w.Closed next) (hstack : w.stack = x :: l) :
    (visitAll ⟨l, w.seen⟩ (next x)).Closed next := by
  obtain ⟨hseen, hstacked, -⟩ := @visitAll_spec _ _ ⟨l, w.seen⟩ (next x) (next x).toFinset
    fun _ => List.mem_toFinset.mpr
  intro y hy hnot z hz
  rw [hstacked, not_or] at hnot
  rw [hseen] at hy ⊢
  have hy' : y ∈ w.seen := hy.elim id fun hmem => by_contra fun hno => hnot.2 ⟨hmem, hno⟩
  rcases eq_or_ne y x with rfl | hne
  · exact .inr hz
  · refine .inl (h y hy' (fun hmem => ?_) z hz)
    rw [hstack] at hmem
    exact hnot.1 ((List.mem_cons.mp hmem).resolve_left hne)

/-- A node is dealt with once. -/
theorem remaining_pop (hstack : w.stack = x :: l) {l' : List α} (hU : ∀ y ∈ l', y ∈ U) :
    (visitAll ⟨l, w.seen⟩ l').remaining U < w.remaining U := by
  refine (visitAll_spec hU).2.2.trans_lt ?_
  simp only [remaining, hstack, List.length_cons]
  omega

end Walk

open Walk

variable {seeds : List α} {U : Finset α} {next : α → List α}

/-- The loop ends with the least set of nodes that holds the seeds and their successors. -/
theorem exists_closure (hseeds : ∀ x ∈ seeds, x ∈ U) (hnext : ∀ x ∈ U, ∀ y ∈ next x, y ∈ U) :
    ∃ n S, iterate (turn next) n (.inr (start seeds)) = .inl S ∧ (∀ x ∈ seeds, x ∈ S) ∧
      (∀ x ∈ S, ∀ y ∈ next x, y ∈ S) ∧
      ∀ T : Set α, (∀ x ∈ seeds, x ∈ T) → (∀ x ∈ T, ∀ y ∈ next x, y ∈ T) → ∀ x ∈ S, x ∈ T := by
  let Inv : Walk α → Prop := fun w => (∀ x ∈ w.stack, x ∈ w.seen) ∧ (∀ x ∈ seeds, x ∈ w.seen) ∧
    w.Closed next ∧
    ∀ T : Set α, (∀ x ∈ seeds, x ∈ T) → (∀ x ∈ T, ∀ y ∈ next x, y ∈ T) → ∀ x ∈ w.seen, x ∈ T
  have hstep : ∀ w v, Inv w → turn next w = .inr v → Inv v ∧ v.remaining U < w.remaining U := by
    rintro w v ⟨hstacked, hsee, hclosed, hleast⟩ hturn
    rw [turn] at hturn
    split at hturn
    · cases hturn
    · rename_i x stack hstack
      obtain rfl := Sum.inr.inj hturn
      have hx : x ∈ w.seen := hstacked x (hstack ▸ List.mem_cons_self)
      have hxU : ∀ y ∈ next x, y ∈ U := hnext x (hleast ↑U hseeds hnext x hx)
      obtain ⟨hseen, hstack', -⟩ := @visitAll_spec _ _ ⟨stack, w.seen⟩ (next x) U hxU
      refine ⟨⟨fun y hy => ?_, fun y hy => ?_, hclosed.pop hstack, fun T hT hT' y hy => ?_⟩,
        remaining_pop hstack hxU⟩
      · rw [hstack'] at hy
        rw [hseen]
        exact hy.imp (fun h => hstacked y (hstack ▸ List.mem_cons_of_mem x h)) fun h => h.1
      · rw [hseen]
        exact .inl (hsee y hy)
      · rw [hseen] at hy
        exact hy.elim (hleast T hT hT' y) (hT' x (hleast T hT hT' x hx) y)
  have hstart : Inv (start seeds) :=
    ⟨fun x hx => List.mem_toFinset.mpr hx, fun x hx => List.mem_toFinset.mpr hx, closed_start,
      fun T hT _ x hx => hT x (List.mem_toFinset.mp hx)⟩
  obtain ⟨n, S, w, hn, ⟨-, hsee, hclosed, hleast⟩, hend⟩ := exists_answer hstep hstart
  rw [turn] at hend
  split at hend
  · rename_i hnil
    obtain rfl := Sum.inl.inj hend
    exact ⟨n, w.seen, hn, hsee, fun x hx => hclosed x hx (hnil ▸ List.not_mem_nil), hleast⟩
  · cases hend

end Worklist
