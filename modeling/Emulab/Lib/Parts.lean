import Mathlib.Data.Finset.Basic
import Mathlib.Data.Finset.SDiff
import Mathlib.Tactic

/-! # Splitting a set into parts

  A resource of finitely many pieces is held by several parties: every piece
  is in exactly one part. Parts may be empty. Handing a set of pieces from one
  part to another keeps the split.
-/

namespace Parts

variable {α : Type*} [DecidableEq α]

/-- The members of `R` are each in exactly one part, and nothing else is in a part. -/
structure Splits (R : Finset α) (l : List (Finset α)) : Prop where
  disjoint : l.Pairwise Disjoint
  /-- The parts have the members of `R`. -/
  mem : ∀ x, x ∈ R ↔ ∃ A ∈ l, x ∈ A

variable {R A B C : Finset α} {l l' : List (Finset α)}

omit [DecidableEq α] in
/-- The order of the parts does not matter. -/
theorem Splits.perm (h : Splits R l) (hp : l.Perm l') : Splits R l' where
  disjoint := (hp.pairwise_iff fun hAB => hAB.symm).mp h.disjoint
  mem x := by
    rw [h.mem x]
    simp only [hp.mem_iff]

omit [DecidableEq α] in
theorem splits_empty : Splits R (∅ :: l) ↔ Splits R l := by
  constructor
  · intro h
    refine ⟨(List.pairwise_cons.mp h.disjoint).2, fun x => ?_⟩
    rw [h.mem x]
    simp
  · intro h
    refine ⟨List.pairwise_cons.mpr ⟨fun B _ => Finset.disjoint_empty_left B, h.disjoint⟩, fun x => ?_⟩
    rw [h.mem x]
    simp

omit [DecidableEq α] in
theorem Splits.subset (h : Splits R l) (hA : A ∈ l) : A ⊆ R :=
  fun x hx => (h.mem x).mpr ⟨A, hA, hx⟩

/-- A part of a part is handed over. -/
theorem Splits.move (h : Splits R (A :: B :: l)) (hC : C ⊆ A) : Splits R ((A \ C) :: (B ∪ C) :: l) := by
  obtain ⟨hA, hrest⟩ := List.pairwise_cons.mp h.disjoint
  obtain ⟨hB, hl⟩ := List.pairwise_cons.mp hrest
  have hAB : Disjoint A B := hA B List.mem_cons_self
  have hAl : ∀ D ∈ l, Disjoint A D := fun D hD => hA D (List.mem_cons_of_mem _ hD)
  constructor
  · refine List.pairwise_cons.mpr ⟨fun D hD => ?_, List.pairwise_cons.mpr ⟨fun D hD => ?_, hl⟩⟩
    · rcases List.mem_cons.mp hD with rfl | hD
      · rw [Finset.disjoint_union_right]
        exact ⟨hAB.mono_left Finset.sdiff_subset, Finset.sdiff_disjoint⟩
      · exact (hAl D hD).mono_left Finset.sdiff_subset
    · rw [Finset.disjoint_union_left]
      exact ⟨hB D hD, (hAl D hD).mono_left hC⟩
  · intro x
    rw [h.mem x]
    have hx : x ∈ A ↔ x ∈ A \ C ∨ x ∈ C := by
      rw [Finset.mem_sdiff]
      constructor
      · intro hxA
        by_cases hxC : x ∈ C
        · exact Or.inr hxC
        · exact Or.inl ⟨hxA, hxC⟩
      · rintro (hxA | hxC)
        · exact hxA.1
        · exact hC hxC
    simp only [List.mem_cons, exists_eq_or_imp, Finset.mem_union, hx]
    tauto

end Parts
