import Mathlib.Tactic

/-! # Computations that may fail

  A computation in `Except` is specified by what it returns, and by a
  proposition without which it does not fail. With `False` in its place a
  specification is about total correctness, with `True` about partial.
-/

namespace Outcome

open List

/-- If `x` returns a result then `Q` holds of it; `x` fails only under `m`. -/
def Yields {ε α : Type} (m : Prop) (x : Except ε α) (Q : α → Prop) : Prop :=
  match x with
  | .ok a => Q a
  | .error _ => m

variable {ε α β : Type} {m : Prop}

variable {Q : α → Prop}

@[simp] theorem yields_ok {a : α} : Yields m (.ok a : Except ε α) Q ↔ Q a :=
  Iff.rfl

@[simp] theorem yields_error {e : ε} : Yields m (.error e : Except ε α) Q ↔ m := Iff.rfl

variable {x : Except ε α}

/-- The result of the first part is what the second part starts from. -/
theorem Yields.bind {f : α → Except ε β} {P : α → Prop} {Q : β → Prop}
    (hx : Yields m x P) (hf : ∀ a, P a → Yields m (f a) Q) : Yields m (x >>= f) Q := by
  cases x with
  | ok a => exact hf a hx
  | error e => exact hx

theorem Yields.imp {P Q : α → Prop} (hx : Yields m x P) (h : ∀ a, P a → Q a) : Yields m x Q := by
  cases x with
  | ok a => exact h a hx
  | error e => exact hx

/-- Where failing is allowed only the results matter. -/
theorem yields_of_ok (hm : m) (h : ∀ a, x = .ok a → Q a) : Yields m x Q := by
  cases x with
  | ok a => exact h a rfl
  | error e => exact hm

/-- The result is one that the computation does return. -/
theorem Yields.and_ok {P : α → Prop} (hx : Yields m x P) : Yields m x fun a => P a ∧ x = .ok a := by
  cases x with
  | ok a => exact ⟨hx, rfl⟩
  | error e => exact hx

theorem Yields.of_ok {a : α} (hx : Yields m x Q) (h : x = .ok a) : Q a := by
  subst h
  exact hx

/-- Where failing is excluded there is a result. -/
theorem Yields.returns (hx : Yields m x Q) (hm : ¬m) : ∃ a, x = .ok a ∧ Q a := by
  cases x with
  | ok a => exact ⟨a, rfl, hx⟩
  | error e => exact absurd hx hm

/-- If `x` returns a result then `Q` holds of it, and if it fails then `E` of the error. -/
def Ends (E : ε → Prop) (x : Except ε α) (Q : α → Prop) : Prop :=
  match x with
  | .ok a => Q a
  | .error e => E e

variable {E : ε → Prop}

@[simp] theorem ends_ok {a : α} : Ends E (.ok a) Q ↔ Q a := Iff.rfl

@[simp] theorem ends_error {e : ε} : Ends E (.error e) Q ↔ E e := Iff.rfl

theorem Ends.bind {f : α → Except ε β} {P : α → Prop} {Q : β → Prop}
    (hx : Ends E x P) (hf : ∀ a, P a → Ends E (f a) Q) : Ends E (x >>= f) Q := by
  cases x with
  | ok a => exact hf a hx
  | error e => exact hx

theorem Ends.imp {P Q : α → Prop} (hx : Ends E x P) (h : ∀ a, P a → Q a) : Ends E x Q := by
  cases x with
  | ok a => exact h a hx
  | error e => exact hx

theorem Ends.and {P Q : α → Prop} (hP : Ends E x P) (hQ : Ends E x Q) : Ends E x fun a => P a ∧ Q a := by
  cases x with
  | ok a => exact ⟨hP, hQ⟩
  | error e => exact hP

theorem Ends.map {f : α → β} {Q : β → Prop} (hx : Ends E x fun a => Q (f a)) : Ends E (x.map f) Q := by
  cases x with
  | ok a => exact hx
  | error e => exact hx

theorem Ends.of_ok {a : α} (hx : Ends E x Q) (h : x = .ok a) : Q a := by
  subst h
  exact hx

theorem Ends.of_error {e : ε} (hx : Ends E x Q) (h : x = .error e) : E e := by
  subst h
  exact hx

theorem Ends.mapM {f : α → Except ε β} {l : List α} {P : β → Prop}
    (h : ∀ a ∈ l, Ends E (f a) P) : Ends E (l.mapM f) fun bs => ∀ b ∈ bs, P b := by
  induction l with
  | nil => exact fun _ hb => nomatch hb
  | cons a l ih =>
    rw [mapM_cons]
    refine (h a (by simp)).bind fun b hb => ?_
    refine (ih fun a' ha' => h a' (by simp [ha'])).bind fun bs hbs => ?_
    intro b' hb'
    rcases mem_cons.mp hb' with rfl | hb'
    · exact hb
    · exact hbs b' hb'

/-- Running a computation on a list returns what each run returns, or fails as one run did. -/
theorem mapM_cases (f : α → Except ε β) (l : List α) :
    (∃ ys, l.mapM f = .ok ys ∧ ys.length = l.length ∧ (∀ x ∈ l, ∃ y ∈ ys, f x = .ok y) ∧
        ∀ y ∈ ys, ∃ x ∈ l, f x = .ok y) ∨
      ∃ x ∈ l, ∃ e, f x = .error e ∧ l.mapM f = .error e := by
  induction l with
  | nil => exact Or.inl ⟨[], rfl, rfl, by simp, by simp⟩
  | cons x l ih =>
    rw [mapM_cons]
    cases hx : f x with
    | error e => exact Or.inr ⟨x, by simp, e, hx, rfl⟩
    | ok y =>
      rcases ih with ⟨ys, hys, hlength, hto, hfrom⟩ | ⟨x', hx', e, he, hfail⟩
      · refine Or.inl ⟨y :: ys, by rw [hys]; rfl, by simp [hlength], ?_, ?_⟩
        · intro x' hx'
          rcases mem_cons.mp hx' with rfl | hx'
          · exact ⟨y, by simp, hx⟩
          · obtain ⟨y', hy', heq⟩ := hto x' hx'
            exact ⟨y', by simp [hy'], heq⟩
        · intro y' hy'
          rcases mem_cons.mp hy' with rfl | hy'
          · exact ⟨x, by simp, hx⟩
          · obtain ⟨x', hx', heq⟩ := hfrom y' hy'
            exact ⟨x', by simp [hx'], heq⟩
      · exact Or.inr ⟨x', by simp [hx'], e, he, by rw [hfail]; rfl⟩

end Outcome
