import Mathlib.Tactic

/-! # Binary heaps

  The places `0 .. n - 1` of an array are a tree in which `i` has the children
  `2 * i + 1` and `2 * i + 2`. The keys are in order if no place has a
  smaller key than its parent. An element that is out of place is swapped
  upwards or downwards: `UpHole` and `DownHole` say what is still in order
  around it, one lemma each says that a swap keeps this, and one that the
  array is in order when there is no reason to go on.
-/

namespace BinaryHeap

variable {K : Type*} [LinearOrder K] {n : Nat} {k : Nat → K} {i c : Nat}

def parent (i : Nat) : Nat := (i - 1) / 2

theorem parent_lt (hi : 0 < i) : parent i < i := by
  unfold parent
  omega

/-- `c` is a child of `i`. -/
def IsChild (c i : Nat) : Prop := 0 < c ∧ parent c = i

theorem isChild_iff : IsChild c i ↔ c = 2 * i + 1 ∨ c = 2 * i + 2 := by
  unfold IsChild parent
  omega

theorem IsChild.lt (h : IsChild c i) : i < c := h.2 ▸ parent_lt h.1

/-- No place has a smaller key than its parent. -/
def Ordered (n : Nat) (k : Nat → K) : Prop := ∀ i, 0 < i → i < n → k (parent i) ≤ k i

theorem Ordered.root_le (h : Ordered n k) : ∀ i, i < n → k 0 ≤ k i := by
  intro i
  induction i using Nat.strong_induction_on with
  | h i ih =>
    intro hi
    rcases Nat.eq_zero_or_pos i with rfl | hpos
    · exact le_rfl
    · have hlt := parent_lt hpos
      exact (ih _ hlt (hlt.trans hi)).trans (h i hpos hi)

/-! ## Upwards -/

/-- Only the key at `i` may be smaller than that of its parent. -/
structure UpHole (n : Nat) (k : Nat → K) (i : Nat) : Prop where
  except : ∀ j, 0 < j → j < n → j ≠ i → k (parent j) ≤ k j
  grand : 0 < i → ∀ c, IsChild c i → c < n → k (parent i) ≤ k c

theorem Ordered.upHole (h : Ordered n k) (i : Nat) : UpHole n k i where
  except j hpos hj _ := h j hpos hj
  grand hpos c hc hcn := by
    have hparent := h i hpos (hc.lt.trans hcn)
    have hchild := h c hc.1 hcn
    rw [hc.2] at hchild
    exact hparent.trans hchild

theorem UpHole.step (h : UpHole n k i) (hpos : 0 < i) (hi : i < n) (hlt : k i < k (parent i)) :
    UpHole n (k ∘ Equiv.swap i (parent i)) (parent i) := by
  have hp : parent i < i := parent_lt hpos
  have hother : ∀ j, j ≠ i → j ≠ parent i → (k ∘ Equiv.swap i (parent i)) j = k j := by
    intro j hj hj'
    simp [Equiv.swap_apply_of_ne_of_ne hj hj']
  have hhere : (k ∘ Equiv.swap i (parent i)) i = k (parent i) := by simp
  have hthere : (k ∘ Equiv.swap i (parent i)) (parent i) = k i := by simp
  constructor
  · intro j hj hjn hjp
    by_cases hji : j = i
    · subst hji
      rw [hhere, hthere]
      exact hlt.le
    · rw [hother j hji hjp]
      by_cases hpi : parent j = i
      · -- the children of `i` get its old parent as their parent
        rw [hpi, hhere]
        exact h.grand hpos j ⟨hj, hpi⟩ hjn
      · have hexcept := h.except j hj hjn hji
        by_cases hpp : parent j = parent i
        · rw [hpp] at hexcept ⊢
          rw [hthere]
          exact hlt.le.trans hexcept
        · rwa [hother _ hpi hpp]
  · intro hpos' c hc hcn
    have hpp := parent_lt hpos'
    have hup := h.except (parent i) hpos' (hp.trans hi) hp.ne
    rw [hother _ (hpp.trans hp).ne hpp.ne]
    by_cases hci : c = i
    · subst hci
      rwa [hhere]
    · have hchild := h.except c hc.1 hcn hci
      rw [hc.2] at hchild
      rw [hother c hci hc.lt.ne']
      exact hup.trans hchild

theorem UpHole.ordered (h : UpHole n k i) (hstop : 0 < i → k (parent i) ≤ k i) : Ordered n k := by
  intro j hpos hj
  by_cases hji : j = i
  · subst hji
    exact hstop hpos
  · exact h.except j hpos hj hji

/-! ## Downwards -/

/-- Only the key at `i` may be larger than those of its children. -/
structure DownHole (n : Nat) (k : Nat → K) (i : Nat) : Prop where
  except : ∀ j, 0 < j → j < n → parent j ≠ i → k (parent j) ≤ k j
  grand : 0 < i → ∀ c, IsChild c i → c < n → k (parent i) ≤ k c

theorem DownHole.step (h : DownHole n k i) (hc : IsChild c i) (hcn : c < n) (hlt : k c < k i)
    (hmin : ∀ c', IsChild c' i → c' < n → k c ≤ k c') : DownHole n (k ∘ Equiv.swap i c) c := by
  have hother : ∀ j, j ≠ i → j ≠ c → (k ∘ Equiv.swap i c) j = k j := by
    intro j hj hj'
    simp [Equiv.swap_apply_of_ne_of_ne hj hj']
  have hhere : (k ∘ Equiv.swap i c) i = k c := by simp
  have hthere : (k ∘ Equiv.swap i c) c = k i := by simp
  constructor
  · intro j hpos hj hjc
    by_cases hji : j = i
    · subst hji
      have hp := parent_lt hpos
      rw [hhere, hother _ hp.ne hjc]
      exact h.grand hpos c hc hcn
    · by_cases hjc' : j = c
      · subst hjc'
        rw [hc.2, hhere, hthere]
        exact hlt.le
      · rw [hother j hji hjc']
        by_cases hpi : parent j = i
        · rw [hpi, hhere]
          exact hmin j ⟨hpos, hpi⟩ hj
        · rw [hother _ hpi hjc]
          exact h.except j hpos hj hpi
  · intro _ d hd hdn
    have hdi : i < d := hc.lt.trans hd.lt
    have hexcept := h.except d hd.1 hdn (by rw [hd.2]; exact hc.lt.ne')
    rw [hd.2] at hexcept
    rwa [hc.2, hhere, hother d hdi.ne' hd.lt.ne']

theorem DownHole.ordered (h : DownHole n k i) (hstop : ∀ c, IsChild c i → c < n → k i ≤ k c) : Ordered n k := by
  intro j hpos hj
  by_cases hpi : parent j = i
  · rw [hpi]
    exact hstop j ⟨hpos, hpi⟩ hj
  · exact h.except j hpos hj hpi

end BinaryHeap
