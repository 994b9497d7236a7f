import Mathlib

/-! # Aligned blocks

  The numbers below `2 ^ w` in blocks of a power of two. A bit string, most
  significant bit first, names the block of the numbers that begin with it.
  Two blocks overlap only if one contains the other, which is so exactly if
  one name is a prefix of the other.
-/

namespace Blocks

open List

/-! ## Section 1: Bit strings as numbers -/

/-- The number that a bit string writes. -/
def value : List Bool → Nat
  | [] => 0
  | b :: bs => b.toNat * 2 ^ bs.length + value bs

@[simp] theorem value_nil : value [] = 0 := rfl

theorem value_append (p q : List Bool) : value (p ++ q) = value p * 2 ^ q.length + value q := by
  induction p with
  | nil => simp
  | cons b p ih =>
    rw [cons_append, value, value, ih, length_append, pow_add]
    ring

theorem value_lt (p : List Bool) : value p < 2 ^ p.length := by
  induction p with
  | nil => simp
  | cons b p ih =>
    rw [value, length_cons, pow_succ]
    have hb : b.toNat * 2 ^ p.length ≤ 1 * 2 ^ p.length := Nat.mul_le_mul_right _ b.toNat_le
    omega

@[simp] theorem value_replicate_false (n : Nat) : value (List.replicate n false) = 0 := by
  induction n with
  | zero => rfl
  | succ n ih => simp [replicate_succ, value, ih]

variable {p q : List Bool}

theorem value_inj (hlen : p.length = q.length) (h : value p = value q) : p = q := by
  induction p generalizing q with
  | nil => exact (length_eq_zero_iff.mp hlen.symm).symm
  | cons b p ih =>
    cases q with
    | nil => simp at hlen
    | cons c q =>
      have hlen' : p.length = q.length := by simpa using hlen
      have hp := value_lt p
      have hq := value_lt q
      rw [value, value, hlen'] at h
      rw [hlen'] at hp
      have hbit : b = c := by
        cases b <;> cases c <;> simp only [Bool.toNat_false, Bool.toNat_true] at h <;>
          first | rfl | omega
      subst hbit
      rw [ih hlen' (by omega)]

/-- The last `k` bits of a number. -/
def toBits : Nat → Nat → List Bool
  | 0, _ => []
  | k + 1, n => decide (n / 2 ^ k % 2 = 1) :: toBits k n

@[simp] theorem length_toBits (k n : Nat) : (toBits k n).length = k := by
  induction k with
  | zero => rfl
  | succ k ih => rw [toBits, length_cons, ih]

theorem value_toBits (k n : Nat) : value (toBits k n) = n % 2 ^ k := by
  induction k with
  | zero => simp [toBits, Nat.mod_one]
  | succ k ih =>
    rw [toBits, value, ih, length_toBits, pow_succ, Nat.mod_mul, Nat.add_comm, Nat.mul_comm]
    congr 2
    rcases Nat.mod_two_eq_zero_or_one (n / 2 ^ k) with h | h <;> simp [h]

theorem exists_value (k n : Nat) (hn : n < 2 ^ k) : ∃ l : List Bool, l.length = k ∧ value l = n :=
  ⟨toBits k n, length_toBits k n, by rw [value_toBits, Nat.mod_eq_of_lt hn]⟩

/-- The number of a string with its end cut off. -/
theorem value_div (p q : List Bool) : value (p ++ q) / 2 ^ q.length = value p := by
  rw [value_append, Nat.mul_comm, Nat.mul_add_div (Nat.two_pow_pos _), Nat.div_eq_of_lt (value_lt q), Nat.add_zero]

/-! ## Section 2: Blocks -/

/-- The numbers of `w` bits that begin with `p`. -/
def block (w : Nat) (p : List Bool) : Set Nat := {n | n / 2 ^ (w - p.length) = value p}

theorem mem_block_iff {w : Nat} {p : List Bool} {n : Nat} : n ∈ block w p ↔ value p * 2 ^ (w - p.length) ≤ n ∧
      n < value p * 2 ^ (w - p.length) + 2 ^ (w - p.length) := by
  have hpos : 0 < 2 ^ (w - p.length) := Nat.two_pow_pos _
  rw [block, Set.mem_ofPred_eq, Nat.div_eq_iff hpos]
  omega

theorem start_mem_block (w : Nat) (p : List Bool) : value p * 2 ^ (w - p.length) ∈ block w p := by
  have hpos : 0 < 2 ^ (w - p.length) := Nat.two_pow_pos _
  rw [mem_block_iff]
  omega

theorem block_eq (w : Nat) (p : List Bool) :
    block w p = {n | value (p ++ List.replicate (w - p.length) false) ≤ n ∧
      n < value (p ++ List.replicate (w - p.length) false) + 2 ^ (w - p.length)} := by
  ext n
  rw [mem_block_iff, value_append, value_replicate_false, length_replicate, Nat.add_zero]
  rfl

theorem block_nonempty (w : Nat) (p : List Bool) : (block w p).Nonempty :=
  ⟨_, start_mem_block w p⟩

theorem block_subset {w : Nat} (hq : q.length ≤ w) (h : p <+: q) : block w q ⊆ block w p := by
  obtain ⟨r, rfl⟩ := h
  intro n hn
  rw [length_append] at hq
  have hn : n / 2 ^ (w - (p ++ r).length) = value (p ++ r) := hn
  show n / 2 ^ (w - p.length) = value p
  have hexp : w - p.length = w - (p ++ r).length + r.length := by
    rw [length_append]
    omega
  rw [hexp, pow_add, ← Nat.div_div_eq_div_mul, hn, value_div]

theorem prefix_of_mem {w n : Nat} (hq : q.length ≤ w)
    (hle : p.length ≤ q.length) (hnp : n ∈ block w p) (hnq : n ∈ block w q) : p <+: q := by
  have hsub : n ∈ block w (q.take p.length) := block_subset hq ( take_prefix _ _) hnq
  have hlen : (q.take p.length).length = p.length := by
    rw [length_take]
    omega
  have hp : n / 2 ^ (w - p.length) = value p := hnp
  have hs : n / 2 ^ (w - (q.take p.length).length) = value (q.take p.length) := hsub
  rw [hlen, hp] at hs
  rw [value_inj hlen.symm hs]
  exact take_prefix _ _

theorem block_subset_iff {w : Nat} (hp : p.length ≤ w) (hq : q.length ≤ w) : block w q ⊆ block w p ↔ p <+: q := by
  constructor
  · intro h
    obtain ⟨n, hn⟩ := block_nonempty w q
    rcases Nat.le_total p.length q.length with hle | hle
    · exact prefix_of_mem hq hle (h hn) hn
    · -- a block in a smaller one is the same
      have hprefix : q <+: p := prefix_of_mem hp hle hn (h hn)
      obtain ⟨r, rfl⟩ := hprefix
      have hlast : value q * 2 ^ (w - q.length) + (2 ^ (w - q.length) - 1) ∈ block w (q ++ r) := by
        apply h
        have hpos : 0 < 2 ^ (w - q.length) := Nat.two_pow_pos _
        rw [mem_block_iff]
        omega
      have hfirst : value q * 2 ^ (w - q.length) ∈ block w (q ++ r) := h (start_mem_block w q)
      rw [mem_block_iff] at hlast hfirst
      have hlen : w - (q ++ r).length + r.length = w - q.length := by
        rw [length_append] at hp ⊢
        omega
      rcases Nat.eq_zero_or_pos r.length with hr | hr
      · rw [length_eq_zero_iff.mp hr, append_nil]
      · have hpos : 0 < 2 ^ (w - (q ++ r).length) := Nat.two_pow_pos _
        have hgrow : 2 * 2 ^ (w - (q ++ r).length) ≤ 2 ^ (w - q.length) := by
          rw [← hlen, pow_add, Nat.mul_comm 2]
          exact Nat.mul_le_mul_left _ (by simpa using Nat.pow_le_pow_right (n := 2) (by decide) hr)
        omega
  · exact block_subset hq

theorem disjoint_block_iff {w : Nat} (hp : p.length ≤ w) (hq : q.length ≤ w) :
    Disjoint (block w p) (block w q) ↔ ¬p <+: q ∧ ¬q <+: p := by
  rw [Set.disjoint_left]
  constructor
  · intro h
    constructor
    · intro hpq
      obtain ⟨n, hn⟩ := block_nonempty w q
      exact h (block_subset hq hpq hn) hn
    · intro hqp
      obtain ⟨n, hn⟩ := block_nonempty w p
      exact h hn (block_subset hp hqp hn)
  · intro h n hnp hnq
    rcases Nat.le_total p.length q.length with hle | hle
    · exact h.1 (prefix_of_mem hq hle hnp hnq)
    · exact h.2 (prefix_of_mem hp hle hnq hnp)

end Blocks
