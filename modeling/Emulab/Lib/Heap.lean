import Mathlib.Data.Finset.Interval
import Mathlib.Order.Interval.Finset.Nat
import Mathlib.Tactic

/-! # Implicit binary heaps

  A heap of `n` elements is an array whose slots `1, ..., n` form a binary
  tree: the parent of slot `i` is slot `i / 2`. The array may hold anything
  in the other slots. Moving an element up or down the tree keeps all pairs
  of parent and child in order but those that it is in, until it has found
  its place.
-/

namespace Heap

variable {α : Type*} {le : α → α → Prop} {a b : Nat → α} {n : Nat}

/-! ## Section 1: The contents of a heap -/

/-- Exchange two slots. -/
def swap (a : Nat → α) (i j : Nat) : Nat → α := fun k => a (Equiv.swap i j k)

@[simp] theorem swap_left (a : Nat → α) (i j : Nat) : swap a i j i = a j := by
  simp [swap]

@[simp] theorem swap_right (a : Nat → α) (i j : Nat) : swap a i j j = a i := by
  simp [swap]

theorem swap_of_ne (a : Nat → α) {i j k : Nat} (hi : k ≠ i) (hj : k ≠ j) : swap a i j k = a k := by
  rw [swap, Equiv.swap_apply_of_ne_of_ne hi hj]

/-- Exchanging two slots that hold the same changes nothing. -/
theorem swap_eq_self (a : Nat → α) {i j : Nat} (h : a i = a j) : swap a i j = a := by
  funext k
  by_cases hi : k = i
  · rw [hi, swap_left, h]
  · by_cases hj : k = j
    · rw [hj, swap_right, h]
    · exact swap_of_ne a hi hj

def bag (a : Nat → α) (n : Nat) : Multiset α := (Finset.Icc 1 n).val.map a

@[simp] theorem bag_zero (a : Nat → α) : bag a 0 = 0 := rfl

theorem mem_bag {x : α} : x ∈ bag a n ↔ ∃ i, 1 ≤ i ∧ i ≤ n ∧ a i = x := by
  simp only [bag, Multiset.mem_map, Finset.mem_val, Finset.mem_Icc, and_assoc]

theorem bag_congr (h : ∀ i, 1 ≤ i → i ≤ n → a i = b i) : bag a n = bag b n := by
  apply Multiset.map_congr rfl
  intro i hi
  obtain ⟨h1, h2⟩ := Finset.mem_Icc.mp (Finset.mem_val.mp hi)
  exact h i h1 h2

theorem bag_succ (a : Nat → α) (n : Nat) : bag a (n + 1) = a (n + 1) ::ₘ bag a n := by
  have hinsert : Finset.Icc 1 (n + 1) = insert (n + 1) (Finset.Icc 1 n) := by
    ext i
    simp only [Finset.mem_insert, Finset.mem_Icc]
    omega
  have hnot : n + 1 ∉ Finset.Icc 1 n := by simp
  rw [bag, hinsert, Finset.insert_val_of_notMem hnot, Multiset.map_cons]
  rfl

/-- Exchanging two slots of the heap keeps its elements. -/
theorem bag_swap (a : Nat → α) {i j : Nat} (hi : 1 ≤ i ∧ i ≤ n) (hj : 1 ≤ j ∧ j ≤ n) :
    bag (swap a i j) n = bag a n := by
  have hmap : (Finset.Icc 1 n).map (Equiv.swap i j).toEmbedding = Finset.Icc 1 n := by
    ext k
    simp only [Finset.mem_map_equiv, Equiv.symm_swap, Finset.mem_Icc]
    by_cases hki : k = i
    · rw [hki, Equiv.swap_apply_left]
      exact iff_of_true hj hi
    · by_cases hkj : k = j
      · rw [hkj, Equiv.swap_apply_right]
        exact iff_of_true hi hj
      · rw [Equiv.swap_apply_of_ne_of_ne hki hkj]
  calc bag (swap a i j) n = ((Finset.Icc 1 n).val.map (Equiv.swap i j)).map a := (Multiset.map_map ..).symm
    _ = (((Finset.Icc 1 n).map (Equiv.swap i j).toEmbedding).val).map a := rfl
    _ = bag a n := by rw [hmap]; rfl

theorem bag_pop {first : Nat → α} (hn : 0 < n) (hfirst : first 1 = a n)
    (hrest : ∀ i, 2 ≤ i → first i = a i) : bag a n = a 1 ::ₘ bag first (n - 1) := by
  obtain ⟨m, rfl⟩ : ∃ m, n = m + 1 := ⟨n - 1, by omega⟩
  rw [← bag_swap a (i := 1) (j := m + 1) ⟨le_rfl, hn⟩ ⟨hn, le_rfl⟩, bag_succ, swap_right, Nat.add_sub_cancel]
  congr 1
  apply bag_congr
  intro i h1 hm
  by_cases hi : i = 1
  · rw [hi, swap_left, hfirst]
  · rw [swap_of_ne a hi (by omega), hrest i (by omega)]

/-! ## Section 2: The order of a heap -/

/-- No element is in front of its parent. -/
def Ordered (le : α → α → Prop) (a : Nat → α) (n : Nat) : Prop :=
  ∀ i, 2 ≤ i → i ≤ n → le (a (i / 2)) (a i)

/-- All pairs are in order, except that slot `c` may have to move up. -/
structure UpReady (le : α → α → Prop) (a : Nat → α) (n c : Nat) : Prop where
  /-- The pairs of which `c` is not the child. -/
  except : ∀ i, 2 ≤ i → i ≤ n → i ≠ c → le (a (i / 2)) (a i)
  /-- The children of `c` may take its parent as theirs. -/
  grand : 2 ≤ c → ∀ i, 2 ≤ i → i ≤ n → i / 2 = c → le (a (c / 2)) (a i)

/-- All pairs are in order, except that slot `p` may have to move down. -/
structure DownReady (le : α → α → Prop) (a : Nat → α) (n p : Nat) : Prop where
  /-- The pairs of which `p` is not the parent. -/
  except : ∀ i, 2 ≤ i → i ≤ n → i / 2 ≠ p → le (a (i / 2)) (a i)
  /-- The children of `p` may take its parent as theirs. -/
  grand : 2 ≤ p → ∀ i, 2 ≤ i → i ≤ n → i / 2 = p → le (a (p / 2)) (a i)

theorem Ordered.upReady (h : Ordered le a n) (heq : ∀ i, i ≤ n → b i = a i) : UpReady le b (n + 1) (n + 1) := by
  constructor
  · intro i h2 hle hne
    rw [heq _ (by omega), heq _ (by omega)]
    exact h i h2 (by omega)
  · intro _ i _ hle hi
    omega

theorem UpReady.ordered {c : Nat} (h : UpReady le a n c) (hc : 2 ≤ c → le (a (c / 2)) (a c)) : Ordered le a n := by
  intro i h2 hle
  by_cases hi : i = c
  · rw [hi]
    exact hc (hi ▸ h2)
  · exact h.except i h2 hle hi

/-- An element that belongs in front of its parent moves up. -/
theorem UpReady.move (htrans : ∀ x y z, le x y → le y z → le x z) {c : Nat}
    (h : UpReady le a n c) (h2c : 2 ≤ c) (hc : c ≤ n) (hle : le (a c) (a (c / 2))) :
    UpReady le (swap a (c / 2) c) n (c / 2) := by
  constructor
  · intro i h2 hi hne
    by_cases hic : i = c
    · rw [hic, swap_left, swap_right]
      exact hle
    rw [swap_of_ne a hne hic]
    by_cases hpc : i / 2 = c
    · rw [hpc, swap_right]
      exact h.grand h2c i h2 hi hpc
    by_cases hpp : i / 2 = c / 2
    · -- the sibling of `c` gets `c` as its parent
      rw [hpp, swap_left]
      apply htrans _ _ _ hle
      rw [← hpp]
      exact h.except i h2 hi hic
    · rw [swap_of_ne a hpp hpc]
      exact h.except i h2 hi hic
  · intro h2p i h2 hi hip
    have hup : le (a (c / 2 / 2)) (a (c / 2)) := h.except (c / 2) h2p (by omega) (by omega)
    rw [swap_of_ne a (by omega : c / 2 / 2 ≠ c / 2) (by omega)]
    by_cases hic : i = c
    · rw [hic, swap_right]
      exact hup
    · rw [swap_of_ne a (by omega) hic]
      apply htrans _ _ _ hup
      rw [← hip]
      exact h.except i h2 hi hic

theorem Ordered.downReady {m : Nat} (h : Ordered le a n) (hmn : m ≤ n)
    (heq : ∀ i, 2 ≤ i → i ≤ m → b i = a i) : DownReady le b m 1 := by
  constructor
  · intro i h2 hi hne
    rw [heq i h2 hi, heq (i / 2) (by omega) (by omega)]
    exact h i h2 (by omega)
  · intro h2
    omega

theorem DownReady.ordered {p : Nat} (h : DownReady le a n p)
    (hp : ∀ i, 2 ≤ i → i ≤ n → i / 2 = p → le (a p) (a i)) : Ordered le a n := by
  intro i h2 hi
  by_cases hip : i / 2 = p
  · rw [hip]
    exact hp i h2 hi hip
  · exact h.except i h2 hi hip

/-- An element that belongs behind a child, of which no sibling is in front, moves down. -/
theorem DownReady.move {p c : Nat} (h : DownReady le a n p) (hcp : c / 2 = p)
    (hc : c ≤ n) (hmin : ∀ i, 2 ≤ i → i ≤ n → i / 2 = p → le (a c) (a i))
    (hle : le (a c) (a p)) : DownReady le (swap a p c) n c := by
  constructor
  · intro i h2 hi hne
    by_cases hic : i = c
    · rw [hic, hcp, swap_left, swap_right]
      exact hle
    by_cases hip : i = p
    · rw [hip, swap_left, swap_of_ne a (by omega) (by omega)]
      exact h.grand (by omega) c (by omega) hc hcp
    rw [swap_of_ne a hip hic]
    by_cases hpp : i / 2 = p
    · rw [hpp, swap_left]
      exact hmin i h2 hi hpp
    · rw [swap_of_ne a hpp hne]
      exact h.except i h2 hi hpp
  · intro _ i h2 hi hic
    rw [hcp, swap_left, swap_of_ne a (by omega) (by omega), ← hic]
    exact h.except i h2 hi (by omega)

theorem Ordered.root_le (hrefl : ∀ x, le x x) (htrans : ∀ x y z, le x y → le y z → le x z)
    (h : Ordered le a n) {i : Nat} (h1 : 1 ≤ i) (hi : i ≤ n) : le (a 1) (a i) := by
  induction i using Nat.strong_induction_on with
  | _ i ih =>
    by_cases hi1 : i = 1
    · rw [hi1]
      exact hrefl _
    · exact htrans _ _ _ (ih (i / 2) (by omega) (by omega) (by omega)) (h i (by omega) hi)

theorem Ordered.root_le_bag (hrefl : ∀ x, le x x)
    (htrans : ∀ x y z, le x y → le y z → le x z) (h : Ordered le a n) : ∀ x ∈ bag a n, le (a 1) x := by
  intro x hx
  obtain ⟨i, h1, hi, rfl⟩ := mem_bag.mp hx
  exact h.root_le hrefl htrans h1 hi

end Heap
