import Mathlib.Tactic

/-! # Breadth-first search

  A queue of vertices whose neighbours are to be looked at, and marks for the vertices
  that were in the queue. A vertex is marked when it enters the queue, so it enters once.
  What is marked in the end is what was marked and what can be reached from the queue.
-/

namespace Search

open List

variable {α : Type} [DecidableEq α]

/-! ## Section 1: The search -/

/-- A neighbour is marked and put into the queue, unless it is marked. -/
def visit (state : (α → Bool) × List α) (w : α) : (α → Bool) × List α :=
  if state.1 w then state else (Function.update state.1 w true, state.2 ++ [w])

/-- Takes vertices out of the queue, at most `fuel` of them, until it is empty. -/
def explore (next : α → List α) : (fuel : Nat) → (α → Bool) → List α → Option (α → Bool)
  | _, marks, [] => some marks
  | 0, _, _ :: _ => none
  | fuel + 1, marks, v :: queue =>
    let state := (next v).foldl visit (marks, queue)
    explore next fuel state.1 state.2

/-- One vertex leads to another. -/
abbrev Leads (next : α → List α) (v w : α) : Prop := w ∈ next v

/-! ## Section 2: One vertex -/

/-- The neighbours of a vertex: those that are not marked enter the queue, once each. -/
theorem foldl_visit (l : List α) (marks : α → Bool) (queue : List α) :
    ∃ marks' new, l.foldl visit (marks, queue) = (marks', queue ++ new) ∧ new.Nodup ∧
      (∀ w, w ∈ new ↔ marks w = false ∧ w ∈ l) ∧
      ∀ w, marks' w = true ↔ marks w = true ∨ w ∈ new := by
  induction l using List.reverseRecOn with
  | nil => exact ⟨marks, [], by simp, nodup_nil, by simp, by simp⟩
  | append_singleton l x ih =>
    obtain ⟨marks', new, hfold, hnodup, hnew, hmarks⟩ := ih
    rw [foldl_append, hfold, foldl_cons, foldl_nil]
    by_cases hx : marks' x = true
    · -- it was marked before, or has just entered the queue
      refine ⟨marks', new, by rw [visit, if_pos hx], hnodup, ?_, hmarks⟩
      intro w
      rw [hnew, mem_append, mem_singleton]
      constructor
      · rintro ⟨hw, hmem⟩
        exact ⟨hw, Or.inl hmem⟩
      · rintro ⟨hw, hmem | rfl⟩
        · exact ⟨hw, hmem⟩
        · rcases (hmarks w).mp hx with hmark | hmem
          · rw [hw] at hmark
            cases hmark
          · exact (hnew w).mp hmem
    · have hx' : marks x = false ∧ x ∉ new := by
        rw [hmarks, not_or, Bool.not_eq_true] at hx
        exact hx
      refine ⟨Function.update marks' x true, new ++ [x], ?_, ?_, ?_, ?_⟩
      · rw [visit, if_neg hx, append_assoc]
      · rw [nodup_append]
        refine ⟨hnodup, nodup_singleton x, ?_⟩
        intro a ha b hb heq
        obtain rfl := mem_singleton.mp hb
        exact hx'.2 (heq ▸ ha)
      · intro w
        rw [mem_append, hnew, mem_append, mem_singleton]
        constructor
        · rintro (⟨hw, hmem⟩ | rfl)
          · exact ⟨hw, Or.inl hmem⟩
          · exact ⟨hx'.1, Or.inr rfl⟩
        · rintro ⟨hw, hmem | rfl⟩
          · exact Or.inl ⟨hw, hmem⟩
          · exact Or.inr rfl
      · intro w
        rw [mem_append, mem_singleton]
        by_cases hw : w = x
        · subst hw
          simp
        · rw [Function.update_of_ne hw, hmarks]
          simp [hw]

theorem card_unmarked (unmarked : Finset α) {marks marks' : α → Bool} {new : List α}
    (hnodup : new.Nodup) (hnew : ∀ w ∈ new, marks w = false ∧ w ∈ unmarked)
    (hmarks : ∀ w, marks' w = true ↔ marks w = true ∨ w ∈ new) :
    (unmarked.filter fun w => marks' w = false).card + new.length =
      (unmarked.filter fun w => marks w = false).card := by
  have hunion : (unmarked.filter fun w => marks w = false) =
      (unmarked.filter fun w => marks' w = false) ∪ new.toFinset := by
    ext w
    have hiff := hmarks w
    simp only [Finset.mem_union, Finset.mem_filter, mem_toFinset]
    by_cases hw : w ∈ new
    · simp [hw, hnew w hw]
    · simp only [hw, or_false] at hiff ⊢
      rw [← Bool.not_eq_true, ← Bool.not_eq_true, hiff]
  have hdisjoint : Disjoint (unmarked.filter fun w => marks' w = false) new.toFinset := by
    rw [Finset.disjoint_left]
    intro w hw hmem
    have hmark := (hmarks w).mpr (Or.inr (mem_toFinset.mp hmem))
    rw [(Finset.mem_filter.mp hw).2] at hmark
    cases hmark
  rw [hunion, Finset.card_union_of_disjoint hdisjoint, toFinset_card_of_nodup hnodup]

/-! ## Section 3: The whole search -/

/-- With fuel for the vertices in the queue and those that are not marked, the search ends.
    What it marks was reached, and where it came by all neighbours are marked. -/
theorem explore_spec {next : α → List α} (unmarked : Finset α) {fuel : Nat} (marks : α → Bool)
    (queue : List α) (hnext : ∀ v, ∀ w ∈ next v, marks w = false → w ∈ unmarked)
    (hfuel : (unmarked.filter fun w => marks w = false).card + queue.length ≤ fuel) :
    ∃ marks', explore next fuel marks queue = some marks' ∧ (∀ w, marks w = true → marks' w = true) ∧
      (∀ w, marks' w = true → marks w = true ∨ ∃ v ∈ queue, Relation.ReflTransGen (Leads next) v w) ∧
      ∀ v, (v ∈ queue ∨ marks v = false ∧ marks' v = true) → ∀ w ∈ next v, marks' w = true := by
  -- a turn takes one vertex out of the queue, and marks what it puts in
  induction fuel generalizing marks queue with
  | zero =>
    obtain rfl : queue = [] := eq_nil_of_length_eq_zero (by omega)
    refine ⟨marks, rfl, fun _ h => h, fun _ h => Or.inl h, ?_⟩
    rintro v (hv | ⟨hfalse, htrue⟩)
    · cases hv
    · rw [hfalse] at htrue
      cases htrue
  | succ fuel ih =>
    cases queue with
    | nil =>
      refine ⟨marks, rfl, fun _ h => h, fun _ h => Or.inl h, ?_⟩
      rintro v (hv | ⟨hfalse, htrue⟩)
      · cases hv
      · rw [hfalse] at htrue
        cases htrue
    | cons v queue =>
      obtain ⟨marks₁, new, hfold, hnodup, hnew, hmarks₁⟩ := foldl_visit (next v) marks queue
      have hcard := card_unmarked unmarked hnodup
        (fun w hw => ⟨((hnew w).mp hw).1, hnext v w ((hnew w).mp hw).2 ((hnew w).mp hw).1⟩) hmarks₁
      have hunmarked : ∀ w, marks₁ w = false → marks w = false := by
        intro w hw
        rw [← Bool.not_eq_true] at hw ⊢
        exact fun hmark => hw ((hmarks₁ w).mpr (Or.inl hmark))
      obtain ⟨marks', hrun, hkept, hsound, hclosed⟩ := ih marks₁ (queue ++ new)
        (fun u w hw hmark => hnext u w hw (hunmarked w hmark))
        (by simp only [length_append, length_cons] at hfuel ⊢; omega)
      refine ⟨marks', by rw [explore, hfold]; exact hrun, ?_, ?_, ?_⟩
      · intro w hw
        exact hkept w ((hmarks₁ w).mpr (Or.inl hw))
      · intro w hw
        have hstep : ∀ u ∈ new, Relation.ReflTransGen (Leads next) v u := fun u hu =>
          Relation.ReflTransGen.single ((hnew u).mp hu).2
        rcases hsound w hw with hw | ⟨u, hu, hreach⟩
        · rcases (hmarks₁ w).mp hw with hw | hw
          · exact Or.inl hw
          · exact Or.inr ⟨v, by simp, hstep w hw⟩
        · rcases mem_append.mp hu with hu | hu
          · exact Or.inr ⟨u, by simp [hu], hreach⟩
          · exact Or.inr ⟨v, by simp, (hstep u hu).trans hreach⟩
      · intro u hu w hw
        -- the turn marks all neighbours of its vertex
        have hdone : u = v → marks' w = true := by
          rintro rfl
          apply hkept
          rw [hmarks₁]
          by_cases hmark : marks w = true
          · exact Or.inl hmark
          · exact Or.inr ((hnew w).mpr ⟨by simpa using hmark, hw⟩)
        rcases hu with hu | ⟨hfalse, htrue⟩
        · rcases mem_cons.mp hu with rfl | hu
          · exact hdone rfl
          · exact hclosed u (Or.inl (mem_append_left _ hu)) w hw
        · by_cases hmark : marks₁ u = true
          · -- what this turn has marked is in the queue
            have hmem : u ∈ new := by
              rcases (hmarks₁ u).mp hmark with h | h
              · rw [hfalse] at h
                cases h
              · exact h
            exact hclosed u (Or.inl (mem_append_right _ hmem)) w hw
          · exact hclosed u (Or.inr ⟨by simpa using hmark, htrue⟩) w hw

theorem explore_class {next : α → List α} (cls : Finset α) {fuel : Nat} {marks : α → Bool}
    {first : α} (hfirst : first ∈ cls) (hnext : ∀ v, ∀ w ∈ next v, w ∈ cls)
    (hmarks : ∀ w, marks w = true ↔ w ∉ cls ∨ w = first) (hfuel : cls.card ≤ fuel) :
    ∃ marks', explore next fuel marks [first] = some marks' ∧
      ∀ w, marks' w = false ↔ w ∈ cls ∧ ¬Relation.ReflTransGen (Leads next) first w := by
  -- `first` is marked, so that one less than the class may enter the queue
  have hunmarked : (cls.filter fun w => marks w = false).card + 1 ≤ cls.card := by
    have hsub : (cls.filter fun w => marks w = false) ⊆ cls.erase first := by
      intro w hw
      obtain ⟨hmem, hfalse⟩ := Finset.mem_filter.mp hw
      rw [← Bool.not_eq_true, hmarks, not_or] at hfalse
      exact Finset.mem_erase.mpr ⟨hfalse.2, hmem⟩
    have hle := Finset.card_le_card hsub
    have hpos := Finset.card_pos.mpr ⟨first, hfirst⟩
    rw [Finset.card_erase_of_mem hfirst] at hle
    omega
  obtain ⟨marks', hrun, hkept, hsound, hclosed⟩ := explore_spec cls marks [first]
    (fun v w hw _ => hnext v w hw) (by simpa using hunmarked.trans hfuel)
  refine ⟨marks', hrun, ?_⟩
  have hreached : ∀ w, Relation.ReflTransGen (Leads next) first w → w ∈ cls ∧ marks' w = true := by
    intro w hreach
    induction hreach with
    | refl => exact ⟨hfirst, hkept first ((hmarks first).mpr (Or.inr rfl))⟩
    | @tail u w _ hlead ih =>
      refine ⟨hnext u w hlead, hclosed u ?_ w hlead⟩
      by_cases hu : u = first
      · exact Or.inl (by simp [hu])
      · refine Or.inr ⟨?_, ih.2⟩
        rw [← Bool.not_eq_true, hmarks, not_or, not_not]
        exact ⟨ih.1, hu⟩
  intro w
  constructor
  · intro hfalse
    have hnot : marks w ≠ true := by
      intro hmark
      rw [hkept w hmark] at hfalse
      cases hfalse
    rw [ne_eq, hmarks, not_or, not_not] at hnot
    refine ⟨hnot.1, fun hreach => ?_⟩
    rw [(hreached w hreach).2] at hfalse
    cases hfalse
  · rintro ⟨hmem, hnot⟩
    rw [← Bool.not_eq_true]
    intro htrue
    rcases hsound w htrue with hmark | ⟨v, hv, hreach⟩
    · rcases (hmarks w).mp hmark with hout | rfl
      · exact hout hmem
      · exact hnot Relation.ReflTransGen.refl
    · obtain rfl := mem_singleton.mp hv
      exact hnot hreach

end Search
