import Mathlib.Tactic

/-! # A thread and its environment

  A thread shares a state with other threads. It is a program in a state
  monad; wherever it reads what others write it yields first, and the
  environment takes any number of steps. Which steps it takes is an input of
  the run, so that a run is a computation, and what holds for every input
  holds for every interleaving.

  An assertion about the state is of use to the thread if it is stable: the
  steps of the environment keep it.
-/

/-- A program that returns an `α`, shares a state `σ`, and takes the
    environment's steps, of type `ε`, from a list with an entry for each yield.
    `none` means that an assertion of the program fails. -/
abbrev Thread (σ ε α : Type) := StateT (σ × List (List ε)) Option α

namespace Thread

variable {σ ε α β : Type} {m : Prop}

/-! ## Section 1: Primitive programs -/

/-- Let the environment take its steps. -/
def yield (act : σ → ε → σ) : Thread σ ε Unit := fun s =>
  match s.2 with
  | [] => some ((), s.1, [])
  | es :: rest => some ((), es.foldl act s.1, rest)

def read (f : σ → α) : Thread σ ε α := fun s => some (f s.1, s)

def update (f : σ → σ) : Thread σ ε Unit := fun s => some ((), f s.1, s.2)

/-- Continue with a value that may be missing. -/
def need (x : Option α) : Thread σ ε α := fun s => x.map fun a => (a, s)

/-- Fail unless `p` holds. -/
def require (p : Bool) : Thread σ ε Unit := need (if p then some () else none)

/-! ## Section 2: Triples -/

/-- Started in a state with `P`, the program ends in a state with `Q`,
    whatever the environment does; it fails only under `m`. -/
def Ensures (m : Prop) (P : σ → Prop) (x : Thread σ ε α) (Q : α → σ → Prop) : Prop :=
  ∀ s o, P s →
    match x (s, o) with
    | some (a, s', _) => Q a s'
    | none => m

/-- The environment keeps `P`. -/
def Stable (act : σ → ε → σ) (P : σ → Prop) : Prop := ∀ s e, P s → P (act s e)

variable {P : σ → Prop}

theorem Stable.foldl {act : σ → ε → σ} (h : Stable act P) (es : List ε) {s : σ}
    (hs : P s) : P (es.foldl act s) := by
  induction es generalizing s with
  | nil => exact hs
  | cons e es ih => exact ih (h s e hs)

theorem ensures_pure {a : α} {Q : α → σ → Prop} (h : ∀ s, P s → Q a s) : Ensures m P (pure a : Thread σ ε α) Q :=
  fun s _ hs => h s hs

variable {x : Thread σ ε α}

theorem Ensures.bind {f : α → Thread σ ε β} {R : α → σ → Prop} {Q : β → σ → Prop} (hx : Ensures m P x R)
    (hf : ∀ a, Ensures m (R a) (f a) Q) : Ensures m P (x >>= f) Q := by
  intro s o hs
  have h := hx s o hs
  show match (x (s, o)).bind fun r => f r.1 r.2 with
    | some (a, s', _) => Q a s'
    | none => m
  cases hrun : x (s, o) with
  | none =>
    rw [hrun] at h
    exact h
  | some r =>
    obtain ⟨a, s', o'⟩ := r
    rw [hrun] at h
    exact hf a s' o' h

theorem Ensures.imp {P P' : σ → Prop} {Q Q' : α → σ → Prop}
    (h : Ensures m P x Q) (hP : ∀ s, P' s → P s) (hQ : ∀ a s, Q a s → Q' a s) : Ensures m P' x Q' := by
  intro s o hs
  have hx := h s o (hP s hs)
  cases hrun : x (s, o) with
  | none =>
    rw [hrun] at hx
    exact hx
  | some r =>
    rw [hrun] at hx
    exact hQ _ _ hx

theorem Ensures.pre {P P' : σ → Prop} {Q : α → σ → Prop}
    (h : Ensures m P x Q) (hP : ∀ s, P' s → P s) : Ensures m P' x Q :=
  h.imp hP fun _ _ hq => hq

theorem Ensures.post {Q Q' : α → σ → Prop} (h : Ensures m P x Q) (hQ : ∀ a s, Q a s → Q' a s) : Ensures m P x Q' :=
  h.imp (fun _ hs => hs) hQ

/-- Two triples for one program. -/
theorem Ensures.and {P P' : σ → Prop} {Q Q' : α → σ → Prop} (h : Ensures m P x Q) (h' : Ensures m P' x Q') :
    Ensures m (fun s => P s ∧ P' s) x fun a s => Q a s ∧ Q' a s := by
  intro s o hs
  have hx := h s o hs.1
  have hx' := h' s o hs.2
  cases hrun : x (s, o) with
  | none =>
    rw [hrun] at hx
    exact hx
  | some r =>
    rw [hrun] at hx hx'
    exact ⟨hx, hx'⟩

theorem ensures_start {Q : α → σ → Prop} (h : ∀ s₀, P s₀ → Ensures m (fun s => s = s₀) x Q) : Ensures m P x Q :=
  fun s o hs => h s hs s o rfl

/-- A fact that the precondition implies may be assumed. -/
theorem ensures_of_pre {φ : Prop} {Q : α → σ → Prop}
    (hφ : ∀ s, P s → φ) (h : φ → Ensures m P x Q) : Ensures m P x Q :=
  fun s o hs => h (hφ s hs) s o hs

theorem ensures_yield {act : σ → ε → σ} (h : Stable act P) : Ensures m P (yield act) fun _ => P := by
  intro s o hs
  cases o with
  | nil => exact hs
  | cons es rest => exact h.foldl es hs

theorem ensures_read {f : σ → α} : Ensures m P (read f : Thread σ ε α) fun a s => P s ∧ a = f s :=
  fun _ _ hs => ⟨hs, rfl⟩

theorem ensures_update {P Q : σ → Prop} {f : σ → σ} (h : ∀ s, P s → Q (f s)) :
    Ensures m P (update f : Thread σ ε Unit) fun _ => Q :=
  fun s _ hs => h s hs

theorem ensures_need {x : Option α} (h : m ∨ ∃ a, x = some a) :
    Ensures m P (need x : Thread σ ε α) fun a s => P s ∧ x = some a := by
  intro s o hs
  cases x with
  | none => exact h.resolve_right (by simp)
  | some a => exact ⟨hs, rfl⟩

theorem ensures_require {p : Bool} (h : m ∨ ∀ s, P s → p = true) :
    Ensures m P (require p : Thread σ ε Unit) fun _ s => P s ∧ p = true := by
  intro s o hs
  cases p with
  | true => exact ⟨hs, rfl⟩
  | false =>
    rcases h with h | h
    · exact h
    · exact absurd (h s hs) Bool.false_ne_true

end Thread
