import Mathlib.Data.List.Perm.Basic
import Mathlib.Tactic

/-! # Bubble sort

  A pass compares each element with the next one and exchanges the two if they
  are out of order. Passes are made until one changes nothing. Each pass that
  changes something leaves fewer pairs out of order, so there are at most as many
  of them as pairs that are out of order.
-/

namespace BubbleSort

open List

variable {α : Type*} (le : α → α → Prop) [DecidableRel le]

/-- Carry an element to the right until one that belongs behind it is met, and go
    on with that one. Also whether two elements were exchanged. -/
def carry (a : α) : List α → List α × Bool
  | [] => ([a], false)
  | b :: rest =>
    if le a b then
      let (l, changed) := carry b rest
      (a :: l, changed)
    else (b :: (carry a rest).1, true)

def pass : List α → List α × Bool
  | [] => ([], false)
  | a :: rest => carry le a rest

/-- How many pairs are out of order. -/
def inversions : List α → Nat
  | [] => 0
  | a :: rest => rest.countP (fun b => ¬le a b) + inversions rest

/-- At most `n` passes. -/
def passes : Nat → List α → List α
  | 0, l => l
  | n + 1, l =>
    let (l, changed) := pass le l
    if changed then passes n l else l

/-- Passes until one changes nothing. -/
def sort (l : List α) : List α := passes le (inversions le l + 1) l

theorem carry_perm (a : α) (l : List α) : (carry le a l).1.Perm (a :: l) := by
  induction l generalizing a with
  | nil => exact .refl _
  | cons b rest ih =>
    unfold carry
    by_cases hab : le a b
    · rw [if_pos hab]
      exact (ih b).cons a
    · rw [if_neg hab]
      exact ((ih a).cons b).trans (.swap _ _ _)

theorem pass_perm (l : List α) : (pass le l).1.Perm l := by
  cases l with
  | nil => exact .refl _
  | cons a rest => exact carry_perm le a rest

theorem passes_perm (n : Nat) (l : List α) : (passes le n l).Perm l := by
  induction n generalizing l with
  | zero => exact .refl _
  | succ n ih =>
    show (if (pass le l).2 = true then passes le n (pass le l).1 else (pass le l).1).Perm l
    split
    · exact (ih _).trans (pass_perm le l)
    · exact pass_perm le l

theorem sort_perm (l : List α) : (sort le l).Perm l := passes_perm le _ l

variable {le}

/-- A pass that changes nothing has found every element in order with the next. -/
theorem pairwise_of_unchanged {a : α} {l : List α} (htrans : ∀ a b c, le a b → le b c → le a c)
    (h : (carry le a l).2 = false) : (carry le a l).1 = a :: l ∧ (a :: l).Pairwise le := by
  induction l generalizing a with
  | nil => exact ⟨rfl, pairwise_singleton _ _⟩
  | cons b rest ih =>
    unfold carry at h ⊢
    split at h
    · rename_i hab
      obtain ⟨hsame, hsorted⟩ := ih h
      rw [if_pos hab]
      refine ⟨congrArg (a :: ·) hsame, pairwise_cons.mpr ⟨fun c hc => ?_, hsorted⟩⟩
      rcases mem_cons.mp hc with rfl | hc
      · exact hab
      · exact htrans _ _ _ hab ((pairwise_cons.mp hsorted).1 c hc)
    · cases h

/-- A pass puts no pair out of order, and one that changes the list puts one in order. -/
theorem carry_inversions (htotal : ∀ a b, le a b ∨ le b a) (a : α) (l : List α) :
    inversions le (carry le a l).1 + (if (carry le a l).2 then 1 else 0) ≤ inversions le (a :: l) := by
  induction l generalizing a with
  | nil => simp [carry, inversions]
  | cons b rest ih =>
    unfold carry
    split
    · have hcount := ((carry_perm le b rest).countP_eq (p := fun c => decide (¬le a c)))
      have hrest := ih b
      simp only [inversions] at hrest ⊢
      omega
    · rename_i hab
      have hba : le b a := (htotal a b).resolve_left hab
      have hcount := ((carry_perm le a rest).countP_eq (p := fun c => decide (¬le b c)))
      have hrest := ih a
      simp only [inversions, countP_cons, hab, hba, not_true_eq_false, not_false_eq_true, decide_false,
        decide_true, if_true, Bool.false_eq_true, if_false] at hrest hcount ⊢
      split at hrest <;> omega

theorem passes_sorted (htotal : ∀ a b, le a b ∨ le b a) (htrans : ∀ a b c, le a b → le b c → le a c)
    (n : Nat) (l : List α) (h : inversions le l < n) : (passes le n l).Pairwise le := by
  induction n generalizing l with
  | zero => omega
  | succ n ih =>
    unfold passes
    cases l with
    | nil => exact List.Pairwise.nil
    | cons a rest =>
      have hless := carry_inversions htotal a rest
      show (if (carry le a rest).2 = true then passes le n (carry le a rest).1
        else (carry le a rest).1).Pairwise le
      cases hchanged : (carry le a rest).2 with
      | true =>
        rw [hchanged, if_pos rfl] at hless
        rw [if_pos rfl]
        exact ih _ (by omega)
      | false =>
        obtain ⟨hsame, hsorted⟩ := pairwise_of_unchanged htrans hchanged
        rw [if_neg Bool.false_ne_true, hsame]
        exact hsorted

/-- The result is in order. -/
theorem sort_sorted (htotal : ∀ a b, le a b ∨ le b a) (htrans : ∀ a b c, le a b → le b c → le a c)
    (l : List α) : (sort le l).Pairwise le :=
  passes_sorted htotal htrans _ l (Nat.lt_succ_self _)

end BubbleSort
