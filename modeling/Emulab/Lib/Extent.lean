import Mathlib.Tactic

/-! # Lists of extents

  An extent is a run of consecutive numbers, given by its first number and
  its length. The lists of interest are ascending: no extent is empty, and
  each ends where the next begins or earlier.
-/

/-- The numbers `start, ..., start + size - 1`. -/
structure Extent where
  start : Nat
  size : Nat
deriving DecidableEq, Repr

namespace Extent

open List

/-- The number after the last one. -/
def stop (e : Extent) : Nat := e.start + e.size

/-- `x` is one of the numbers of the extent. -/
def Has (e : Extent) (x : Nat) : Prop := e.start ≤ x ∧ x < e.stop

instance (e : Extent) (x : Nat) : Decidable (e.Has x) := inferInstanceAs (Decidable (_ ∧ _))

/-- `x` is one of the numbers of an extent of the list. -/
def Covered (l : List Extent) (x : Nat) : Prop := ∃ e ∈ l, e.Has x

instance (l : List Extent) (x : Nat) : Decidable (Covered l x) :=
  inferInstanceAs (Decidable (∃ e ∈ l, _))

/-- Nonempty extents, each ending where a later one begins or earlier. -/
structure Ascending (l : List Extent) : Prop where
  nonempty : ∀ e ∈ l, 0 < e.size
  ordered : l.Pairwise fun e e' => e.stop ≤ e'.start

/-- Ascending, with at least one number between two extents. -/
structure Separated (l : List Extent) : Prop where
  nonempty : ∀ e ∈ l, 0 < e.size
  apart : l.Pairwise fun e e' => e.stop < e'.start

@[simp] theorem covered_nil (x : Nat) : ¬Covered [] x := by
  intro h
  obtain ⟨e, he, -⟩ := h
  simp at he

@[simp] theorem covered_cons (e : Extent) (l : List Extent) (x : Nat) :
    Covered (e :: l) x ↔ e.Has x ∨ Covered l x := by
  simp [Covered]

@[simp] theorem covered_append (l l' : List Extent) (x : Nat) :
    Covered (l ++ l') x ↔ Covered l x ∨ Covered l' x := by
  simp [Covered, or_and_right, exists_or]

variable {l : List Extent}

theorem Separated.ascending (h : Separated l) : Ascending l :=
  ⟨h.nonempty, h.apart.imp fun hlt => Nat.le_of_lt hlt⟩

theorem ascending_cons {e : Extent} :
    Ascending (e :: l) ↔ 0 < e.size ∧ (∀ e' ∈ l, e.stop ≤ e'.start) ∧ Ascending l := by
  constructor
  · intro h
    have hnonempty := forall_mem_cons.mp h.nonempty
    have hordered := pairwise_cons.mp h.ordered
    exact ⟨hnonempty.1, hordered.1, hnonempty.2, hordered.2⟩
  · intro h
    obtain ⟨h1, h2, h3⟩ := h
    exact ⟨forall_mem_cons.mpr ⟨h1, h3.nonempty⟩, pairwise_cons.mpr ⟨h2, h3.ordered⟩⟩

theorem separated_cons {e : Extent} :
    Separated (e :: l) ↔ 0 < e.size ∧ (∀ e' ∈ l, e.stop < e'.start) ∧ Separated l := by
  constructor
  · intro h
    have hnonempty := forall_mem_cons.mp h.nonempty
    have hapart := pairwise_cons.mp h.apart
    exact ⟨hnonempty.1, hapart.1, hnonempty.2, hapart.2⟩
  · intro h
    obtain ⟨h1, h2, h3⟩ := h
    exact ⟨forall_mem_cons.mpr ⟨h1, h3.nonempty⟩, pairwise_cons.mpr ⟨h2, h3.apart⟩⟩

theorem Ascending.trim {e e' : Extent} (h : Ascending (e :: l))
    (hsize : 0 < e'.size) (hstop : e'.stop = e.stop) : Ascending (e' :: l) := by
  obtain ⟨-, h2, h3⟩ := ascending_cons.mp h
  rw [← hstop] at h2
  exact ascending_cons.mpr ⟨hsize, h2, h3⟩

theorem Ascending.has_unique {α : Type} {f : α → Extent} {l : List α} (h : Ascending (l.map f))
    {a b : α} {x : Nat} (ha : a ∈ l) (hb : b ∈ l) (hax : (f a).Has x) (hbx : (f b).Has x) : a = b := by
  have hord : ∀ a b, (f a).stop ≤ (f b).start → (f a).Has x → ¬(f b).Has x := by
    intro a b hab ha hb
    have := ha.2
    have := hb.1
    omega
  have hp := pairwise_iff_getElem.mp (pairwise_map.mp h.ordered)
  obtain ⟨i, hi, rfl⟩ := getElem_of_mem ha
  obtain ⟨j, hj, rfl⟩ := getElem_of_mem hb
  rcases Nat.lt_trichotomy i j with hlt | heq | hgt
  · exact absurd hbx (hord _ _ (hp i j hi hj hlt) hax)
  · subst heq
    rfl
  · exact absurd hax (hord _ _ (hp j i hj hi hgt) hbx)

/-! ## Maximal runs -/

/-- The numbers from `lo` up to `hi` have a property, and the next ones on both sides do not. -/
structure IsRun (P : Nat → Prop) (lo hi : Nat) : Prop where
  nonempty : lo < hi
  inside : ∀ x, lo ≤ x → x < hi → P x
  left : ∀ x, x + 1 = lo → ¬P x
  right : ¬P hi

/-- `x` is in a maximal run of at least `n` numbers. -/
def InRun (P : Nat → Prop) (n x : Nat) : Prop := ∃ lo hi, IsRun P lo hi ∧ lo ≤ x ∧ x < hi ∧ n ≤ hi - lo

theorem Separated.isRun (h : Separated l) {e : Extent} (he : e ∈ l) : IsRun (Covered l) e.start e.stop := by
  have hsize := h.nonempty e he
  have hapart : ∀ e' ∈ l, e' = e ∨ e'.stop < e.start ∨ e.stop < e'.start := by
    intro e' he'
    by_cases heq : e' = e
    · exact Or.inl heq
    · refine Or.inr ?_
      have hsymm : Std.Symm fun e e' : Extent => e.stop < e'.start ∨ e'.stop < e.start := ⟨fun _ _ => Or.symm⟩
      have hpairs : l.Pairwise fun e e' : Extent => e.stop < e'.start ∨ e'.stop < e.start :=
        h.apart.imp fun hlt => Or.inl hlt
      exact hpairs.forall he' he heq
  constructor
  · unfold stop
    omega
  · exact fun x hlo hhi => ⟨e, he, hlo, hhi⟩
  · intro x hx hcov
    obtain ⟨e', he', hlo, hhi⟩ := hcov
    unfold stop at *
    rcases hapart e' he' with rfl | hlt | hlt <;> omega
  · intro hcov
    obtain ⟨e', he', hlo, hhi⟩ := hcov
    unfold stop at *
    rcases hapart e' he' with rfl | hlt | hlt <;> omega

theorem Separated.isRun_iff (h : Separated l) {lo hi : Nat} :
    IsRun (Covered l) lo hi ↔ ∃ e ∈ l, e.start = lo ∧ e.stop = hi := by
  constructor
  · intro hrun
    obtain ⟨e, he, hlo, hhi⟩ := hrun.inside lo (le_refl _) hrun.nonempty
    have hown := h.isRun he
    refine ⟨e, he, ?_, ?_⟩
    · rcases Nat.lt_or_ge e.start lo with hlt | hge
      · exact absurd (hown.inside (lo - 1) (by omega) (by omega)) (hrun.left (lo - 1) (by omega))
      · omega
    · rcases Nat.lt_trichotomy e.stop hi with hlt | heq | hgt
      · exact absurd (hrun.inside e.stop (by omega) hlt) hown.right
      · exact heq
      · exact absurd (hown.inside hi (by have := hrun.nonempty; omega) hgt) hrun.right
  · intro hex
    obtain ⟨e, he, rfl, rfl⟩ := hex
    exact h.isRun he

theorem Separated.inRun_iff (h : Separated l) (n x : Nat) :
    InRun (Covered l) n x ↔ Covered (l.filter fun e => n ≤ e.size) x := by
  unfold InRun Covered
  constructor
  · intro hex
    obtain ⟨lo, hi, hrun, hlo, hhi, hn⟩ := hex
    obtain ⟨e, he, rfl, rfl⟩ := h.isRun_iff.mp hrun
    refine ⟨e, mem_filter.mpr ⟨he, decide_eq_true ?_⟩, hlo, hhi⟩
    unfold stop at hn
    omega
  · intro hex
    obtain ⟨e, he, hlo, hhi⟩ := hex
    obtain ⟨he, hn⟩ := mem_filter.mp he
    refine ⟨e.start, e.stop, h.isRun he, hlo, hhi, ?_⟩
    unfold stop
    have := of_decide_eq_true hn
    omega

/-! ## The numbers of extents -/

/-- The numbers of an extent in ascending order. -/
def numbers (e : Extent) : List Nat := List.range' e.start e.size

@[simp] theorem mem_numbers {e : Extent} {x : Nat} : x ∈ e.numbers ↔ e.Has x := by
  unfold numbers Has stop
  simp

theorem mem_flatMap_numbers {x : Nat} : x ∈ l.flatMap numbers ↔ Covered l x := by
  simp [Covered]

theorem sum_range' (a c k : Nat) : (List.range' (a + c) k).sum = k * a + (List.range' c k).sum := by
  induction k generalizing c with
  | zero => simp
  | succ k ih =>
    have := ih (c + 1)
    rw [range'_succ, range'_succ, sum_cons, sum_cons, Nat.add_assoc a c 1, this, Nat.succ_mul]
    omega

theorem sum_flatMap_numbers {ι : Type*} (l : List ι) (f : ι → Extent) : (l.flatMap fun i => (f i).numbers).sum =
    (l.map fun i => (f i).size * (f i).start + (List.range' 0 (f i).size).sum).sum := by
  induction l with
  | nil => rfl
  | cons i l ih =>
    rw [flatMap_cons, sum_append, map_cons, sum_cons, ih]
    exact congrArg (· + _) (sum_range' (f i).start 0 (f i).size)

theorem eq_of_sum_eq {ι : Type*} {l : List ι} {f g : ι → Nat} (hle : ∀ i ∈ l, f i ≤ g i)
    (h : (l.map f).sum = (l.map g).sum) : ∀ i ∈ l, f i = g i := by
  induction l with
  | nil => simp
  | cons j l ih =>
    have hj := hle j mem_cons_self
    have hl : (l.map f).sum ≤ (l.map g).sum := sum_le_sum fun i hi => hle i (mem_cons_of_mem _ hi)
    rw [map_cons, map_cons, sum_cons, sum_cons] at h
    intro i hi
    rcases mem_cons.mp hi with rfl | hi
    · omega
    · exact ih (fun i hi => hle i (mem_cons_of_mem _ hi)) (by omega) i hi

/-- Extents that begin no later and are no larger than others have the same numbers as they, each
    as often, only if they are the same. -/
theorem perm_numbers_iff {ι : Type*} {l : List ι} {a b : ι → Extent}
    (hsize : ∀ i ∈ l, (a i).size ≤ (b i).size) (hstart : ∀ i ∈ l, (a i).start ≤ (b i).start)
    (hpos : ∀ i ∈ l, 0 < (b i).size) :
    (l.flatMap fun i => (a i).numbers).Perm (l.flatMap fun i => (b i).numbers) ↔ ∀ i ∈ l, a i = b i := by
  constructor
  · intro hperm
    have hsizes : ∀ i ∈ l, (a i).size = (b i).size := by
      refine eq_of_sum_eq hsize ?_
      have hlength := hperm.length_eq
      rw [length_flatMap, length_flatMap] at hlength
      simpa [numbers] using hlength
    have hsums := hperm.sum_eq
    rw [sum_flatMap_numbers, sum_flatMap_numbers] at hsums
    intro i hi
    have hterm := eq_of_sum_eq (fun i hi => by
      rw [hsizes i hi]
      exact Nat.add_le_add_right (Nat.mul_le_mul_left _ (hstart i hi)) _) hsums i hi
    rw [hsizes i hi, Nat.add_right_cancel_iff] at hterm
    have hstarts := Nat.eq_of_mul_eq_mul_left (hpos i hi) hterm
    cases ha : a i
    cases hb : b i
    have := hsizes i hi
    rw [ha, hb] at this hstarts
    exact congrArg₂ Extent.mk hstarts this
  · intro heq
    rw [flatMap_congr fun i hi => by rw [heq i hi]]

/-! ## Scanning for runs -/

/-- Numbers from `lo` on have been looked at, up to `n`: the runs that have ended, and where the
    current one began. -/
structure Scanned (P : Nat → Prop) [DecidablePred P] (lo n : Nat) (current : Option Nat) (runs : List Extent) :
    Prop where
  le : lo ≤ n
  /-- Where the current run began. -/
  current_lt : ∀ c, current = some c → lo ≤ c ∧ c < n
  numbers : runs.flatMap numbers ++ (current.elim [] fun c => List.range' c (n - c)) =
    (List.range' lo (n - lo)).filter (P ·)
  separated : Separated runs
  /-- Between the runs and what follows there is a number. -/
  stop_lt : ∀ e ∈ runs, e.stop < current.getD n

variable {P : Nat → Prop} [DecidablePred P] {lo n : Nat} {current : Option Nat} {runs : List Extent}

theorem scanned_init (P : Nat → Prop) [DecidablePred P] (lo : Nat) : Scanned P lo lo none [] where
  le := le_refl lo
  current_lt := nofun
  numbers := by simp
  separated := ⟨by simp, .nil⟩
  stop_lt := by simp

theorem range'_sub_succ (h : lo ≤ n) : List.range' lo (n + 1 - lo) = List.range' lo (n - lo) ++ [n] := by
  rw [Nat.succ_sub h, range'_1_concat, Nat.add_sub_cancel' h]

theorem Scanned.extend (h : Scanned P lo n current runs) (hn : P n) :
    Scanned P lo (n + 1) (some (current.getD n)) runs where
  le := Nat.le_succ_of_le h.le
  current_lt c hc := by
    obtain rfl := Option.some.inj hc
    cases current with
    | none => exact ⟨h.le, Nat.lt_succ_self n⟩
    | some c =>
      have := h.current_lt c rfl
      exact ⟨this.1, Nat.lt_succ_of_lt this.2⟩
  numbers := by
    rw [range'_sub_succ h.le, filter_append, ← h.numbers, append_assoc]
    congr 1
    rw [filter_cons_of_pos (by simpa using hn), filter_nil]
    cases current with
    | none => simp
    | some c => exact range'_sub_succ (h.current_lt c rfl).2.le
  separated := h.separated
  stop_lt e he := h.stop_lt e he

/-- The next number does not have the property: the current run ends. -/
theorem Scanned.close {c : Nat} (h : Scanned P lo n (some c) runs) (hn : ¬P n) :
    Scanned P lo (n + 1) none (runs ++ [⟨c, n - c⟩]) where
  le := Nat.le_succ_of_le h.le
  current_lt := nofun
  numbers := by
    rw [range'_sub_succ h.le, filter_append, ← h.numbers, filter_cons_of_neg (by simpa using hn)]
    simp [Extent.numbers]
  separated := by
    obtain ⟨-, hlt⟩ := h.current_lt c rfl
    refine ⟨fun e he => ?_, pairwise_append.mpr ⟨h.separated.apart, by simp, fun e he e' he' => ?_⟩⟩
    · rcases mem_append.mp he with he | he
      · exact h.separated.nonempty e he
      · obtain rfl := mem_singleton.mp he
        exact Nat.sub_pos_of_lt hlt
    · obtain rfl := mem_singleton.mp he'
      exact h.stop_lt e he
  stop_lt e he := by
    obtain ⟨-, hlt⟩ := h.current_lt c rfl
    rcases mem_append.mp he with he | he
    · exact Nat.lt_trans (h.stop_lt e he) (Nat.lt_succ_of_lt hlt)
    · obtain rfl := mem_singleton.mp he
      show c + (n - c) < n + 1
      omega

theorem Scanned.skip (h : Scanned P lo n none runs) (hn : ¬P n) : Scanned P lo (n + 1) none runs where
  le := Nat.le_succ_of_le h.le
  current_lt := nofun
  numbers := by
    rw [range'_sub_succ h.le, filter_append, ← h.numbers, filter_cons_of_neg (by simpa using hn)]
    simp
  separated := h.separated
  stop_lt e he := Nat.lt_succ_of_lt (h.stop_lt e he)

theorem Scanned.skips {n' : Nat} (h : Scanned P lo n none runs) (hle : n ≤ n')
    (hnone : ∀ k, n ≤ k → k < n' → ¬P k) : Scanned P lo n' none runs := by
  induction n', hle using Nat.le_induction with
  | base => exact h
  | succ k hk ih => exact (ih fun j hj hlt => hnone j hj (Nat.lt_succ_of_lt hlt)).skip (hnone k hk (Nat.lt_succ_self k))

end Extent
