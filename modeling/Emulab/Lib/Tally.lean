import Mathlib.Tactic
import Mathlib.Data.Multiset.Lattice

/-! # Tallies

  A tally is a map from keys to counts, kept as a list of entries in no
  particular order. It tells how often each key occurs in a multiset. What
  occurs most often is found by going through the entries, in any order.
-/

namespace Tally

open List

variable {α : Type*} [BEq α] [LawfulBEq α]

/-! ## Section 1: Counts -/

abbrev keys (t : List (α × Int)) : List α := t.map Prod.fst

/-- The count of a key, 0 if it has no entry. -/
def count (t : List (α × Int)) (a : α) : Int := (t.lookup a).getD 0

omit [LawfulBEq α] in
@[simp] theorem count_nil (a : α) : count [] a = 0 := rfl

theorem count_cons [DecidableEq α] (e : α × Int) (t : List (α × Int)) (a : α) :
    count (e :: t) a = if e.1 = a then e.2 else count t a := by
  unfold count
  rw [lookup_cons]
  by_cases h : e.1 = a
  · simp [h]
  · have hne : (a == e.1) = false := by simpa [beq_eq_false_iff_ne] using Ne.symm h
    simp [h, hne]

theorem count_of_mem {t : List (α × Int)} (h : (keys t).Nodup) {e : α × Int} (he : e ∈ t) : count t e.1 = e.2 := by
  classical
  induction t with
  | nil => cases he
  | cons e' t ih =>
    obtain ⟨hnot, hrest⟩ := nodup_cons.mp h
    rw [count_cons]
    rcases mem_cons.mp he with rfl | he
    · exact if_pos rfl
    · rw [if_neg, ih hrest he]
      intro heq
      exact hnot (heq ▸ mem_map_of_mem he)

theorem count_of_not_mem {t : List (α × Int)} {a : α} (h : a ∉ keys t) : count t a = 0 := by
  unfold count
  rw [lookup_eq_none_iff.mpr, Option.getD_none]
  intro e he
  rw [bne_iff_ne]
  intro heq
  exact h (heq ▸ mem_map_of_mem he)

/-- An entry is found under its key. -/
theorem mem_of_count_ne_zero {t : List (α × Int)} {a : α} (h : count t a ≠ 0) : (a, count t a) ∈ t := by
  classical
  induction t with
  | nil => exact absurd rfl h
  | cons e t ih =>
    rw [count_cons] at h ⊢
    by_cases heq : e.1 = a
    · rw [if_pos heq, ← heq]
      exact mem_cons_self
    · rw [if_neg heq] at h ⊢
      exact mem_cons_of_mem _ (ih h)

/-- The order of the entries does not matter. -/
theorem count_perm {t t' : List (α × Int)} (hperm : t'.Perm t) (h : (keys t).Nodup) (a : α) :
    count t' a = count t a := by
  have h' : (keys t').Nodup := (hperm.map Prod.fst).nodup_iff.mpr h
  by_cases hmem : a ∈ keys t
  · obtain ⟨e, he, rfl⟩ := mem_map.mp hmem
    rw [count_of_mem h he, count_of_mem h' (hperm.mem_iff.mpr he)]
  · have hmem' : a ∉ keys t' := fun h => hmem ((hperm.map Prod.fst).mem_iff.mp h)
    rw [count_of_not_mem hmem, count_of_not_mem hmem']

/-! ## Section 2: Changing a count -/

section Update

variable [DecidableEq α]

/-- The entry of a key is removed. -/
def erase (t : List (α × Int)) (a : α) : List (α × Int) := t.filter (·.1 ≠ a)

/-- The count of a key is set. -/
def set (t : List (α × Int)) (a : α) (n : Int) : List (α × Int) := (a, n) :: erase t a

theorem count_erase (t : List (α × Int)) (a b : α) : count (erase t a) b = if b = a then 0 else count t b := by
  induction t with
  | nil => simp [erase]
  | cons e t ih =>
    by_cases he : e.1 = a
    · have hdrop : erase (e :: t) a = erase t a := filter_cons_of_neg (by simpa using he)
      rw [hdrop, ih, count_cons]
      by_cases hb : b = a
      · rw [if_pos hb, if_pos hb]
      · rw [if_neg hb, if_neg hb, if_neg (fun h => hb (h.symm.trans he))]
    · have hkeep : erase (e :: t) a = e :: erase t a := filter_cons_of_pos (by simpa using he)
      rw [hkeep, count_cons, count_cons, ih]
      by_cases hb : b = a
      · subst hb
        rw [if_neg he, if_pos rfl, if_pos rfl]
      · simp only [if_neg hb]

theorem count_set (t : List (α × Int)) (a b : α) (n : Int) :
    count (set t a n) b = if b = a then n else count t b := by
  unfold set
  rw [count_cons, count_erase]
  by_cases hb : b = a
  · rw [if_pos hb.symm, if_pos hb]
  · rw [if_neg (Ne.symm hb), if_neg hb, if_neg hb]

omit [BEq α] [LawfulBEq α] in
theorem nodup_erase {t : List (α × Int)} (h : (keys t).Nodup) (a : α) : (keys (erase t a)).Nodup :=
  h.sublist (filter_sublist.map _)

omit [BEq α] [LawfulBEq α] in
theorem nodup_set {t : List (α × Int)} (h : (keys t).Nodup) (a : α) (n : Int) : (keys (set t a n)).Nodup := by
  refine nodup_cons.mpr ⟨?_, nodup_erase h a⟩
  intro hmem
  obtain ⟨e, he, heq⟩ := mem_map.mp hmem
  exact of_decide_eq_true (mem_filter.mp he).2 heq

end Update

/-! ## Section 3: The tally of a multiset -/

section Multiset

variable [DecidableEq α]

/-- The tally has how often each key occurs. -/
structure Of (t : List (α × Int)) (m : Multiset α) : Prop where
  nodup : (keys t).Nodup
  count : ∀ a, count t a = (m.count a : Int)

omit [LawfulBEq α] in
theorem of_nil : Of ([] : List (α × Int)) 0 := ⟨nodup_nil, fun _ => by simp⟩

/-- One more. -/
theorem Of.cons {t : List (α × Int)} {m : Multiset α} (h : Of t m) (a : α) :
    Of (set t a (Tally.count t a + 1)) (a ::ₘ m) := by
  refine ⟨nodup_set h.nodup a _, fun b => ?_⟩
  rw [count_set, h.count, h.count, Multiset.count_cons]
  by_cases hb : b = a
  · rw [if_pos hb, if_pos hb, hb]
    push_cast
    rfl
  · rw [if_neg hb, if_neg hb, Nat.add_zero]

/-- One less. An entry whose count comes to 0 may be removed. -/
theorem Of.erase {t t' : List (α × Int)} {m : Multiset α} (h : Of t m) {a : α} (ha : a ∈ m)
    (ht' : t' = if Tally.count t a - 1 = 0 then Tally.erase t a
      else set t a (Tally.count t a - 1)) : Of t' (m.erase a) := by
  have hpos := Multiset.count_pos.mpr ha
  have hcount := h.count a
  refine ⟨?_, fun b => ?_⟩
  · rw [ht']
    split
    · exact nodup_erase h.nodup a
    · exact nodup_set h.nodup a _
  · have hset : Tally.count t' b = if b = a then Tally.count t a - 1 else Tally.count t b := by
      rw [ht']
      split
      · rename_i hzero
        rw [count_erase, hzero]
      · rw [count_set]
    rw [hset]
    by_cases hb : b = a
    · subst hb
      rw [if_pos rfl, Multiset.count_erase_self, hcount]
      omega
    · rw [if_neg hb, Multiset.count_erase_of_ne hb, h.count]

/-- How often the most frequent element occurs. -/
def top (m : Multiset α) : Nat := (m.map fun a => m.count a).sup

omit [BEq α] [LawfulBEq α] in
@[simp] theorem top_zero : top (0 : Multiset α) = 0 := rfl

omit [BEq α] [LawfulBEq α] in
theorem count_le_top (m : Multiset α) (a : α) : m.count a ≤ top m := by
  by_cases ha : a ∈ m
  · exact Multiset.le_sup (Multiset.mem_map_of_mem _ ha)
  · rw [Multiset.count_eq_zero_of_notMem ha]
    exact Nat.zero_le _

omit [BEq α] [LawfulBEq α] in
theorem top_eq {m : Multiset α} {a : α} (h : ∀ b, m.count b ≤ m.count a) : top m = m.count a := by
  refine le_antisymm ?_ (count_le_top m a)
  apply Multiset.sup_le.mpr
  intro n hn
  obtain ⟨b, -, rfl⟩ := Multiset.mem_map.mp hn
  exact h b

omit [BEq α] [LawfulBEq α] in
theorem top_cons (a : α) (m : Multiset α) : top (a ::ₘ m) = max (top m) (m.count a + 1) := by
  apply le_antisymm
  · apply Multiset.sup_le.mpr
    intro n hn
    obtain ⟨b, -, rfl⟩ := Multiset.mem_map.mp hn
    have hle := count_le_top m b
    by_cases hb : b = a
    · rw [hb, Multiset.count_cons_self]
      exact le_max_right _ _
    · rw [Multiset.count_cons_of_ne hb]
      omega
  · apply max_le
    · apply Multiset.sup_le.mpr
      intro n hn
      obtain ⟨b, -, rfl⟩ := Multiset.mem_map.mp hn
      exact (Multiset.count_le_count_cons b a m).trans (count_le_top _ b)
    · rw [← Multiset.count_cons_self]
      exact count_le_top _ a

end Multiset

/-! ## Section 4: The largest count -/

/-- The first entry with the largest count, if it is larger than that of `best`. -/
def largest (best : α × Int) (t : List (α × Int)) : α × Int :=
  t.foldl (fun best e => if best.2 < e.2 then e else best) best

omit [BEq α] [LawfulBEq α] in
theorem largest_spec (t : List (α × Int)) (best : α × Int) :
    (∀ e ∈ t, e.2 ≤ (largest best t).2) ∧ best.2 ≤ (largest best t).2 ∧
      (largest best t ∈ t ∨ largest best t = best) := by
  induction t generalizing best with
  | nil => exact ⟨fun e he => absurd he not_mem_nil, le_rfl, Or.inr rfl⟩
  | cons e t ih =>
    have hcons : largest best (e :: t) = largest (if best.2 < e.2 then e else best) t := rfl
    obtain ⟨hall, hle, hfound⟩ := ih (if best.2 < e.2 then e else best)
    rw [hcons]
    have hmax : e.2 ≤ (if best.2 < e.2 then e else best).2 ∧ best.2 ≤ (if best.2 < e.2 then e else best).2 := by
      split <;> omega
    refine ⟨?_, hmax.2.trans hle, ?_⟩
    · intro e' he'
      rcases mem_cons.mp he' with rfl | he'
      · exact hmax.1.trans hle
      · exact hall e' he'
    · rcases hfound with hmem | heq
      · exact Or.inl (mem_cons_of_mem _ hmem)
      · rw [heq]
        split
        · exact Or.inl mem_cons_self
        · exact Or.inr rfl

theorem Of.largest [DecidableEq α] {t t' : List (α × Int)} {m : Multiset α} (h : Of t m)
    (hperm : t'.Perm t) (a : α) :
    (Tally.largest (a, 0) t').2 = (top m : Int) ∧ ((m.count (Tally.largest (a, 0) t').1 : Int) = top m) := by
  obtain ⟨hall, hle, hfound⟩ := largest_spec t' (a, 0)
  generalize Tally.largest (a, 0) t' = found at *
  have hmax : ∀ b, (m.count b : Int) ≤ found.2 := by
    intro b
    by_cases hzero : Tally.count t b = 0
    · rw [← h.count, hzero]
      exact hle
    · rw [← h.count]
      exact hall _ (hperm.mem_iff.mpr (mem_of_count_ne_zero hzero))
  have hval : (m.count found.1 : Int) = found.2 := by
    rcases hfound with hmem | heq
    · rw [← h.count, count_of_mem h.nodup (hperm.mem_iff.mp hmem)]
    · have hzero := hmax found.1
      rw [heq] at hzero ⊢
      dsimp only at hzero ⊢
      omega
  have htop : top m = m.count found.1 := top_eq fun b => by
    have := hmax b
    omega
  exact ⟨by rw [htop, hval], by rw [htop]⟩

end Tally
