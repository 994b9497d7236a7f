import Mathlib.Tactic

/-! # Machines that may fail

  A program with assertions is a step function into `Option`: `none` means
  that an assertion fails. A run feeds a list of events to the machine. The
  two rules below turn a fact about one step into one about whole runs:
  an invariant is kept, and, where the invariant excludes failure, no
  assertion fires.
-/

namespace Machine

open List Option

variable {σ ε : Type*} {step : σ → ε → Option σ}

/-- Run a machine over a list of events. -/
def run (step : σ → ε → Option σ) : σ → List ε → Option σ
  | s, [] => some s
  | s, e :: es => (step s e).bind fun s' => run step s' es

/-- Every event of the run from `s` meets `ok` in the state it is handled in. -/
def Meets (step : σ → ε → Option σ) (ok : σ → ε → Prop) : σ → List ε → Prop
  | _, [] => True
  | s, e :: es => ok s e ∧ ∀ s', step s e = some s' → Meets step ok s' es

/-- Whether a run meets a condition can be found out by running it. -/
instance decidableMeets (ok : σ → ε → Prop) [∀ s e, Decidable (ok s e)] (s : σ) :
    (es : List ε) → Decidable (Meets step ok s es)
  | [] => isTrue trivial
  | e :: es =>
    match h : step s e with
    | none => decidable_of_iff (ok s e) (by simp [Meets, h])
    | some s' =>
      haveI := decidableMeets ok s' es
      decidable_of_iff (ok s e ∧ Meets step ok s' es) (by simp [Meets, h])

@[simp] theorem run_nil (s : σ) : run step s [] = some s := rfl

theorem run_cons (s : σ) (e : ε) (es : List ε) :
    run step s (e :: es) = (step s e).bind fun s' => run step s' es := rfl

theorem run_append (s : σ) (es es' : List ε) :
    run step s (es ++ es') = (run step s es).bind fun s' => run step s' es' := by
  induction es generalizing s with
  | nil => rfl
  | cons e es ih =>
    rw [cons_append, run_cons, run_cons, bind_assoc]
    congr 1
    funext s'
    exact ih s'

/-- A condition on events alone holds along a run if it holds of its events. -/
theorem meets_of_forall {p : ε → Prop} {es : List ε} (h : ∀ e ∈ es, p e) (s : σ) :
    Meets step (fun _ e => p e) s es := by
  induction es generalizing s with
  | nil => trivial
  | cons e es ih =>
    exact ⟨h e mem_cons_self, fun s' _ => ih (fun e' he' => h e' (mem_cons_of_mem _ he')) s'⟩

theorem meets_and {ok ok' : σ → ε → Prop} {s : σ} {es : List ε} (h : Meets step ok s es)
    (h' : Meets step ok' s es) : Meets step (fun s e => ok s e ∧ ok' s e) s es := by
  induction es generalizing s with
  | nil => trivial
  | cons e es ih => exact ⟨⟨h.1, h'.1⟩, fun s' hs' => ih (h.2 s' hs') (h'.2 s' hs')⟩

/-- In a run that gets to its end every event was handled in some state. -/
theorem forall_of_meets {ok : σ → ε → Prop} {s s' : σ} {es : List ε} (h : Meets step ok s es)
    (hrun : run step s es = some s') : ∀ e ∈ es, ∃ c, ok c e := by
  induction es generalizing s with
  | nil => simp
  | cons e es ih =>
    rw [run_cons, bind_eq_some_iff] at hrun
    obtain ⟨s₁, hs₁, hrun⟩ := hrun
    intro e' he'
    rcases mem_cons.mp he' with rfl | he'
    · exact ⟨s, h.1⟩
    · exact ih (h.2 s₁ hs₁) hrun e' he'

theorem meets_iff {ok : σ → ε → Prop} {s : σ} {es : List ε} :
    Meets step ok s es ↔ ∀ pre e s', pre ++ [e] <+: es → run step s pre = some s' → ok s' e := by
  induction es generalizing s with
  | nil => exact ⟨fun _ pre e s' hpre => absurd (prefix_nil.mp hpre) (by simp), fun _ => trivial⟩
  | cons e es ih =>
    constructor
    · intro ⟨hok, hrest⟩ pre e' s' hpre hrun
      cases pre with
      | nil =>
        obtain rfl : s = s' := some.inj hrun
        obtain ⟨rfl, -⟩ := cons_prefix_cons.mp hpre
        exact hok
      | cons e₁ pre =>
        obtain ⟨rfl, hpre'⟩ := cons_prefix_cons.mp hpre
        rw [run_cons, bind_eq_some_iff] at hrun
        obtain ⟨s₁, hs₁, hrun⟩ := hrun
        exact ih.mp (hrest s₁ hs₁) pre e' s' hpre' hrun
    · intro hall
      refine ⟨hall [] e s (prefix_append [e] es) rfl, fun s₁ hs₁ => ih.mpr fun pre e' s' hpre hrun => ?_⟩
      refine hall (e :: pre) e' s' (cons_prefix_cons.mpr ⟨rfl, hpre⟩) ?_
      rw [run_cons, hs₁]
      exact hrun

/-- **Invariant rule.** What every step preserves, every run preserves. -/
theorem run_inv {ok : σ → ε → Prop} (Inv : σ → Prop)
    (hstep : ∀ s e s', Inv s → ok s e → step s e = some s' → Inv s') {s s' : σ} {es : List ε}
    (hs : Inv s) (hok : Meets step ok s es) (hrun : run step s es = some s') : Inv s' := by
  induction es generalizing s with
  | nil =>
    obtain rfl : s = s' := some.inj hrun
    exact hs
  | cons e es ih =>
    rw [run_cons, bind_eq_some_iff] at hrun
    obtain ⟨s₁, hs₁, hrun⟩ := hrun
    exact ih (hstep s e s₁ hs hok.1 hs₁) (hok.2 s₁ hs₁) hrun

/-- **Progress rule.** If no step fails in a state of the invariant, no run fails. -/
theorem run_total {ok : σ → ε → Prop} (Inv : σ → Prop)
    (hstep : ∀ s e, Inv s → ok s e → ∃ s', step s e = some s' ∧ Inv s') {s : σ} {es : List ε}
    (hs : Inv s) (hok : Meets step ok s es) : ∃ s', run step s es = some s' ∧ Inv s' := by
  induction es generalizing s with
  | nil => exact ⟨s, rfl, hs⟩
  | cons e es ih =>
    obtain ⟨s₁, hs₁, hinv⟩ := hstep s e hs hok.1
    obtain ⟨s', hrun, hinv'⟩ := ih hinv (hok.2 s₁ hs₁)
    exact ⟨s', by rw [run_cons, hs₁]; exact hrun, hinv'⟩

/-- **Exactness rule.** Where a step keeps `P` exactly if it meets `ok`, all
    states of a run have `P` exactly if all of its steps meet `ok`. -/
theorem prefix_iff_meets {ok : σ → ε → Prop} (Inv P : σ → Prop)
    (hinv : ∀ s e s', Inv s → step s e = some s' → Inv s')
    (hiff : ∀ s e s', Inv s → P s → step s e = some s' → (P s' ↔ ok s e))
    (hfail : ∀ s e, Inv s → step s e = none → ok s e) {s : σ} (hs : Inv s) (hP : P s) (es : List ε) :
    (∀ pre s', pre <+: es → run step s pre = some s' → P s') ↔ Meets step ok s es := by
  induction es generalizing s with
  | nil =>
    refine ⟨fun _ => trivial, fun _ pre s' hpre hrun => ?_⟩
    rw [prefix_nil.mp hpre] at hrun
    obtain rfl : s = s' := some.inj hrun
    exact hP
  | cons e es ih =>
    constructor
    · intro hall
      cases hstep : step s e with
      | none =>
        refine ⟨hfail s e hs hstep, fun s₁ hs₁ => ?_⟩
        rw [hstep] at hs₁
        cases hs₁
      | some s₁ =>
        have hone : run step s [e] = some s₁ := by rw [run_cons, hstep]; rfl
        have hP₁ := hall [e] s₁ (prefix_cons_inj e |>.mpr nil_prefix) hone
        refine ⟨(hiff s e s₁ hs hP hstep).mp hP₁, fun s₂ hs₂ => ?_⟩
        obtain rfl : s₁ = s₂ := some.inj (hstep.symm.trans hs₂)
        refine (ih (hinv s e s₁ hs hstep) hP₁).mp fun pre s' hpre hrun => ?_
        refine hall (e :: pre) s' (prefix_cons_inj e |>.mpr hpre) ?_
        rw [run_cons, hstep]
        exact hrun
    · intro hmeets pre s' hpre hrun
      cases pre with
      | nil =>
        obtain rfl : s = s' := some.inj hrun
        exact hP
      | cons e' pre =>
        obtain ⟨rfl, hpre'⟩ := cons_prefix_cons.mp hpre
        rw [run_cons, bind_eq_some_iff] at hrun
        obtain ⟨s₁, hs₁, hrun⟩ := hrun
        have hP₁ := (hiff s e' s₁ hs hP hs₁).mpr hmeets.1
        exact (ih (hinv s e' s₁ hs hs₁) hP₁).mpr (hmeets.2 s₁ hs₁) pre s' hpre' hrun

/-- **Conservation rule.** If every step adds `g e` to a quantity `f`, a run
    adds the sum over its events. -/
theorem run_sum {M : Type*} [AddCommMonoid M] {ok : σ → ε → Prop} (Inv : σ → Prop) (f : σ → M) (g : ε → M)
    (hstep : ∀ s e s', Inv s → ok s e → step s e = some s' → Inv s' ∧ f s' = f s + g e)
    {s s' : σ} {es : List ε} (hs : Inv s) (hok : Meets step ok s es)
    (hrun : run step s es = some s') : f s' = f s + (es.map g).sum := by
  induction es generalizing s with
  | nil =>
    obtain rfl : s = s' := some.inj hrun
    simp
  | cons e es ih =>
    rw [run_cons, bind_eq_some_iff] at hrun
    obtain ⟨s₁, hs₁, hrun⟩ := hrun
    obtain ⟨hinv, hf⟩ := hstep s e s₁ hs hok.1 hs₁
    rw [ih hinv (hok.2 s₁ hs₁) hrun, hf, map_cons, sum_cons, add_assoc]

end Machine
