import Mathlib.Algebra.BigOperators.Group.List.Basic
import Mathlib.Algebra.Order.BigOperators.Group.List
import Mathlib.Tactic

/-! # Timelines

  Events that happen at certain times, each of which changes a level. If the
  events are taken one after another, in the order of their times, the level
  is right whenever all events of a time have been taken; in between it
  depends on the order of the events of the same time. The worst order is the
  one with all decreases first.
-/

namespace Timeline

variable {ε : Type*} {time change : ε → Int} {l : List ε} {level : Int}

def total (change : ε → Int) (l : List ε) : Int := (l.map change).sum

@[simp] theorem total_nil : total change [] = 0 := rfl

@[simp] theorem total_cons (e : ε) (l : List ε) : total change (e :: l) = change e + total change l := by
  simp [total]

@[simp] theorem total_append (l l' : List ε) : total change (l ++ l') = total change l + total change l' := by
  simp [total]

theorem total_perm {l l' : List ε} (h : l.Perm l') : total change l = total change l' :=
  (h.map change).sum_eq

/-- A total splits into those of the events with and without a property. -/
theorem total_filter_add (change : ε → Int) (p : ε → Bool) (l : List ε) :
    total change (l.filter p) + total change (l.filter fun e => !p e) = total change l := by
  induction l with
  | nil => rfl
  | cons e l ih =>
    cases hp : p e
    · simp only [List.filter_cons, hp, Bool.false_eq_true, if_false, Bool.not_false, if_true, total_cons]
      omega
    · simp only [List.filter_cons, hp, Bool.not_true, Bool.false_eq_true, if_false, if_true, total_cons]
      omega

/-- The level does not become negative when the events are taken one by one. -/
def NeverNegative (change : ε → Int) (level : Int) (l : List ε) : Prop :=
  ∀ pre, pre <+: l → pre ≠ [] → 0 ≤ level + total change pre

theorem neverNegative_nil : NeverNegative change level [] := by
  intro pre hpre hne
  exact absurd (List.prefix_nil.mp hpre) hne

theorem neverNegative_cons {e : ε} : NeverNegative change level (e :: l) ↔
    0 ≤ level + change e ∧ NeverNegative change (level + change e) l := by
  constructor
  · intro h
    have h1 : 0 ≤ level + change e := by
      have := h [e] (by simp) (by simp)
      simpa using this
    refine ⟨h1, fun pre hpre _ => ?_⟩
    have := h (e :: pre) (List.cons_prefix_cons.mpr ⟨rfl, hpre⟩) (by simp)
    rw [total_cons] at this
    omega
  · rintro ⟨h1, h⟩ pre hpre hne
    cases pre with
    | nil => exact absurd rfl hne
    | cons e' pre =>
      obtain ⟨rfl, hpre'⟩ := List.cons_prefix_cons.mp hpre
      rw [total_cons]
      by_cases hnil : pre = []
      · rw [hnil, total_nil]
        omega
      · have := h pre hpre' hnil
        omega

/-- In the order of their times. -/
abbrev Sorted (time : ε → Int) (l : List ε) : Prop := l.Pairwise fun e e' => time e ≤ time e'

/-- The events of a sorted timeline before, at and after a time. -/
theorem Sorted.split (h : Sorted time l) (t : Int) :
    l = l.filter (fun e => time e < t) ++ l.filter (fun e => time e = t) ++ l.filter fun e => t < time e := by
  induction l with
  | nil => rfl
  | cons e l ih =>
    obtain ⟨hall, hrest⟩ := List.pairwise_cons.mp h
    have ih := ih hrest
    rcases lt_trichotomy (time e) t with hlt | heq | hgt
    · simp only [List.filter_cons, hlt, decide_true, if_true, hlt.ne, decide_false,
        Bool.false_eq_true, if_false, not_lt.mpr hlt.le, List.cons_append]
      rw [← ih]
    · have hnone : l.filter (fun e => time e < t) = [] := by
        rw [List.filter_eq_nil_iff]
        intro e' he'
        have := hall e' he'
        simp only [decide_eq_true_eq]
        omega
      rw [hnone, List.nil_append] at ih
      simp only [List.filter_cons, heq, lt_irrefl, decide_false, Bool.false_eq_true, if_false,
        decide_true, if_true, hnone, List.nil_append, List.cons_append]
      rw [← ih]
    · have hnone : l.filter (fun e => time e < t) = [] := by
        rw [List.filter_eq_nil_iff]
        intro e' he'
        have := hall e' he'
        simp only [decide_eq_true_eq]
        omega
      have hnone' : l.filter (fun e => time e = t) = [] := by
        rw [List.filter_eq_nil_iff]
        intro e' he'
        have := hall e' he'
        simp only [decide_eq_true_eq]
        omega
      rw [hnone, hnone', List.nil_append, List.nil_append] at ih
      simp only [List.filter_cons, hgt, not_lt.mpr hgt.le, hgt.ne', decide_false,
        Bool.false_eq_true, if_false, decide_true, if_true, hnone, hnone', List.nil_append]
      rw [← ih]

/-- When all events up to a time have been taken, the level is not negative. -/
theorem NeverNegative.upTo (hs : Sorted time l) (h : NeverNegative change level l)
    (hlevel : 0 ≤ level) (t : Int) : 0 ≤ level + total change (l.filter fun e => time e ≤ t) := by
  have hpre : l.filter (fun e => time e < t + 1) <+: l := by
    have hsplit := hs.split (t + 1)
    rw [List.append_assoc] at hsplit
    exact ⟨_, hsplit.symm⟩
  have heq : l.filter (fun e => time e < t + 1) = l.filter fun e => time e ≤ t := by
    apply List.filter_congr
    intro e _
    exact decide_eq_decide.mpr Int.lt_add_one_iff
  rw [heq] at hpre
  by_cases hnil : (l.filter fun e => time e ≤ t) = []
  · rw [hnil, total_nil]
    omega
  · exact h _ hpre hnil

def decrease (change : ε → Int) (e : ε) : Int := min (change e) 0

/-- What the events before a time and the decreases at this time change. -/
def worst (time change : ε → Int) (l : List ε) (t : Int) : Int :=
  total change (l.filter fun e => time e < t) + total (decrease change) (l.filter fun e => time e = t)

theorem worst_perm {l l' : List ε} (h : l.Perm l') (t : Int) : worst time change l t = worst time change l' t := by
  rw [worst, worst, total_perm (h.filter _), total_perm (h.filter _)]

theorem worst_append (l l' : List ε) (t : Int) :
    worst time change (l ++ l') t = worst time change l t + worst time change l' t := by
  unfold worst
  rw [List.filter_append, List.filter_append, total_append, total_append]
  omega

theorem total_decrease_nonpos (change : ε → Int) (l : List ε) : total (decrease change) l ≤ 0 := by
  induction l with
  | nil => exact le_rfl
  | cons e l ih =>
    have : decrease change e ≤ 0 := min_le_right _ _
    rw [total_cons]
    omega

theorem total_decrease_le (change : ε → Int) (l : List ε) : total (decrease change) l ≤ total change l := by
  induction l with
  | nil => exact le_rfl
  | cons e l ih =>
    have : decrease change e ≤ change e := min_le_left _ _
    rw [total_cons, total_cons]
    omega

theorem neverNegative_of_worst (hs : Sorted time l)
    (h : ∀ t, 0 ≤ level + worst time change l t) : NeverNegative change level l := by
  intro pre hpre hne
  obtain ⟨rest, rfl⟩ := hpre
  obtain ⟨pre, e, rfl⟩ := (List.eq_nil_or_concat' pre).resolve_left hne
  -- all events before the time of the last one have been taken
  have hlast : ∀ e' ∈ rest, time e ≤ time e' := by
    intro e' he'
    exact (List.pairwise_append.mp hs).2.2 e (by simp) e' he'
  have hbefore : ∀ e' ∈ pre ++ [e], time e' ≤ time e := by
    intro e' he'
    rcases List.mem_append.mp he' with hmem | hmem
    · exact (List.pairwise_append.mp (List.pairwise_append.mp hs).1).2.2 e' hmem e (by simp)
    · rw [List.mem_singleton.mp hmem]
  have hnone : rest.filter (fun e' => time e' < time e) = [] := by
    rw [List.filter_eq_nil_iff]
    intro e' he'
    have := hlast e' he'
    simp only [decide_eq_true_eq]
    omega
  have hnot : (pre ++ [e]).filter (fun e' => !decide (time e' < time e)) =
      (pre ++ [e]).filter fun e' => time e' = time e := by
    apply List.filter_congr
    intro e' he'
    have := hbefore e' he'
    rw [← decide_not]
    apply decide_eq_decide.mpr
    omega
  have hworst := h (time e)
  rw [worst, List.filter_append (pre ++ [e]) rest, List.filter_append (pre ++ [e]) rest, hnone,
    List.append_nil, total_append] at hworst
  have hsplit := total_filter_add change (fun e' => decide (time e' < time e)) (pre ++ [e])
  rw [hnot] at hsplit
  have h1 := total_decrease_le change ((pre ++ [e]).filter fun e' => time e' = time e)
  have h2 := total_decrease_nonpos change (rest.filter fun e' => time e' = time e)
  omega

theorem NeverNegative.worst (hs : Sorted time l) (h : NeverNegative change level l)
    (hlevel : 0 ≤ level) {t : Int} {down up : List ε} (hsplit : l.filter (fun e => time e = t) = down ++ up)
    (hdown : ∀ e ∈ down, change e ≤ 0) (hup : ∀ e ∈ up, 0 ≤ change e) : 0 ≤ level + worst time change l t := by
  have hpre : l.filter (fun e => time e < t) ++ down <+: l := by
    have hl := hs.split t
    rw [hsplit, ← List.append_assoc, List.append_assoc] at hl
    exact ⟨_, hl.symm⟩
  have hd : total (decrease change) down = total change down := by
    unfold total
    congr 1
    apply List.map_congr_left
    intro e he
    exact min_eq_left (hdown e he)
  have hu : total (decrease change) up = 0 := by
    unfold total
    apply List.sum_eq_zero
    intro x hx
    obtain ⟨e, he, rfl⟩ := List.mem_map.mp hx
    exact min_eq_right (hup e he)
  rw [Timeline.worst, hsplit, total_append, hd, hu, add_zero, ← total_append]
  by_cases hnil : l.filter (fun e => time e < t) ++ down = []
  · rw [hnil, total_nil]
    omega
  · exact h _ hpre hnil

/-! ## The order of the times -/

/-- The events sorted by time. Events of the same time keep their order. -/
def sortByTime (time : ε → Int) (l : List ε) : List ε :=
  l.insertionSort fun e e' => time e ≤ time e'

theorem sortByTime_perm (l : List ε) : (sortByTime time l).Perm l :=
  List.perm_insertionSort _ l

theorem sorted_sortByTime (l : List ε) : Sorted time (sortByTime time l) := by
  have : Std.Total fun e e' : ε => time e ≤ time e' := ⟨fun e e' => le_total _ _⟩
  have : IsTrans ε fun e e' => time e ≤ time e' := ⟨fun _ _ _ => le_trans⟩
  exact List.pairwise_insertionSort _ l

theorem filter_sortByTime (l : List ε) (t : Int) :
    (sortByTime time l).filter (fun e => time e = t) = l.filter fun e => time e = t := by
  have : Std.Total fun e e' : ε => time e ≤ time e' := ⟨fun e e' => le_total _ _⟩
  have : IsTrans ε fun e e' => time e ≤ time e' := ⟨fun _ _ _ => le_trans⟩
  have hpair : (l.filter fun e => time e = t).Pairwise fun e e' => time e ≤ time e' := by
    apply List.pairwise_of_forall_mem_list
    intro a ha b hb
    simp only [List.mem_filter, decide_eq_true_eq] at ha hb
    omega
  have hsub := (List.sublist_insertionSort (r := fun e e' => time e ≤ time e') hpair
    List.filter_sublist).filter fun e => decide (time e = t)
  rw [List.filter_filter] at hsub
  simp only [Bool.and_self] at hsub
  apply (hsub.eq_of_length _).symm
  exact ((sortByTime_perm l).filter _).length_eq.symm

end Timeline
