import Mathlib.Tactic

/-! # Subnets

  A subnet is given by a number whose low bits are zero, and by how many bits
  those are. What is covered by it shares its high bits. A subnet is divided
  by counting in some of the bits that are free. Two subnets that are given by
  contiguous masks overlap only when one is a part of the other.
-/

namespace Subnet

/-- The number is one of the subnet. -/
def Covers (bits start n : Nat) : Prop := n / 2 ^ bits = start / 2 ^ bits

instance (bits start n : Nat) : Decidable (Covers bits start n) :=
  inferInstanceAs (Decidable (n / 2 ^ bits = start / 2 ^ bits))

section

variable {bits small start i j n : Nat}

theorem div_of_le (hle : small ≤ bits) (n : Nat) : n / 2 ^ bits = n / 2 ^ small / 2 ^ (bits - small) := by
  rw [Nat.div_div_eq_div_mul, ← pow_add, Nat.add_sub_cancel' hle]

theorem covers_of_le {start' : Nat} (hle : small ≤ bits) (hstart : Covers bits start start')
    (h : Covers small start' n) : Covers bits start n := by
  unfold Covers at h hstart ⊢
  rw [div_of_le hle, h, ← div_of_le hle, hstart]

theorem shiftLeft_or (hle : small ≤ bits) (haligned : 2 ^ bits ∣ start)
    (hi : i < 2 ^ (bits - small)) : i <<< small ||| start = start + i * 2 ^ small := by
  obtain ⟨k, rfl⟩ := haligned
  have hlt : i * 2 ^ small < 2 ^ bits := by
    calc i * 2 ^ small < 2 ^ (bits - small) * 2 ^ small := Nat.mul_lt_mul_of_pos_right hi (by positivity)
      _ = 2 ^ bits := by rw [← pow_add, Nat.sub_add_cancel hle]
  rw [Nat.shiftLeft_eq, Nat.or_comm, ← Nat.two_pow_add_eq_or_of_lt hlt]

theorem dvd_child (hle : small ≤ bits) (haligned : 2 ^ bits ∣ start) : 2 ^ small ∣ start + i * 2 ^ small :=
  Nat.dvd_add ((pow_dvd_pow 2 hle).trans haligned) (Nat.dvd_mul_left _ _)

theorem child_lt (hle : small ≤ bits) (hi : i < 2 ^ (bits - small)) : i * 2 ^ small + 2 ^ small ≤ 2 ^ bits := by
  calc i * 2 ^ small + 2 ^ small = (i + 1) * 2 ^ small := by ring
    _ ≤ 2 ^ (bits - small) * 2 ^ small := Nat.mul_le_mul_right _ hi
    _ = 2 ^ bits := by rw [← pow_add, Nat.sub_add_cancel hle]

theorem covers_child (hle : small ≤ bits) (haligned : 2 ^ bits ∣ start)
    (hi : i < 2 ^ (bits - small)) : Covers bits start (start + i * 2 ^ small) := by
  obtain ⟨k, rfl⟩ := haligned
  have := child_lt hle hi
  have hpos : 0 < 2 ^ small := by positivity
  unfold Covers
  rw [Nat.mul_add_div (by positivity), Nat.mul_div_cancel_left _ (by positivity),
    Nat.div_eq_of_lt (by omega), add_zero]

/-- Two parts of a subnet have nothing in common. -/
theorem not_covers_sibling (hne : i ≠ j)
    (h : Covers small (start + i * 2 ^ small) n) : ¬Covers small (start + j * 2 ^ small) n := by
  intro h'
  unfold Covers at h h'
  rw [h] at h'
  have hpos : 0 < 2 ^ small := by positivity
  rw [Nat.add_mul_div_right _ _ hpos, Nat.add_mul_div_right _ _ hpos] at h'
  exact hne (by omega)

variable {width : Nat}

theorem and_mask (haligned : 2 ^ bits ∣ start) (hlt : start < 2 ^ width) :
    start &&& (2 ^ width - 1) <<< bits % 2 ^ width = start := by
  apply Nat.eq_of_testBit_eq
  intro k
  rw [Nat.testBit_and, Nat.testBit_mod_two_pow, Nat.testBit_shiftLeft, Nat.testBit_two_pow_sub_one]
  by_cases hk : start.testBit k = true
  · -- a bit that is set is neither one of the low ones nor behind the end
    have hwidth : k < width := by
      by_contra hnot
      rw [Nat.testBit_lt_two_pow (hlt.trans_le (Nat.pow_le_pow_right (by omega) (by omega)))] at hk
      cases hk
    have hbits : bits ≤ k := by
      by_contra hnot
      obtain ⟨m, rfl⟩ := haligned
      rw [Nat.testBit_two_pow_mul] at hk
      simp only [Bool.and_eq_true, decide_eq_true_eq, ge_iff_le] at hk
      omega
    have : k - bits < width := by omega
    simp [hk, hwidth, hbits, this]
  · simp [Bool.not_eq_true] at hk
    simp [hk]

/-- A contiguous mask: the low `bits` bits are not in it. -/
def mask (width bits : Nat) : Nat := 2 ^ width - 2 ^ bits

theorem testBit_mask (hle : bits ≤ width) (k : Nat) :
    (mask width bits).testBit k = (decide (bits ≤ k) && decide (k < width)) := by
  have heq : mask width bits = 2 ^ bits * (2 ^ (width - bits) - 1) := by
    rw [mask, Nat.mul_sub, ← pow_add, Nat.add_sub_cancel' hle, mul_one]
  rw [heq, Nat.testBit_two_pow_mul, Nat.testBit_two_pow_sub_one]
  by_cases hk : bits ≤ k
  · have hiff : k - bits < width - bits ↔ k < width := by omega
    simp [hk, hiff]
  · simp [hk]

theorem and_mask_eq (hle : bits ≤ width) (n : Nat) :
    n &&& mask width bits = n % 2 ^ width / 2 ^ bits * 2 ^ bits := by
  apply Nat.eq_of_testBit_eq
  intro k
  rw [Nat.testBit_and, testBit_mask hle, Nat.mul_comm _ (2 ^ bits), Nat.testBit_two_pow_mul,
    Nat.testBit_div_two_pow, Nat.testBit_mod_two_pow]
  by_cases hk : bits ≤ k
  · simp [hk, Bool.and_comm]
  · simp [hk]

theorem mask_and_mask (hsmall : small ≤ bits) (hle : bits ≤ width) :
    mask width small &&& mask width bits = mask width bits := by
  apply Nat.eq_of_testBit_eq
  intro k
  rw [Nat.testBit_and, testBit_mask (hsmall.trans hle), testBit_mask hle]
  by_cases hk : bits ≤ k
  · have := hsmall.trans hk
    simp [hk, this]
  · simp [hk]

/-- Two subnets have a number in common. -/
def Overlap (start m start' m' : Nat) : Prop := ∃ n, n &&& m = start ∧ n &&& m' = start'

theorem Overlap.symm {start' m m' : Nat} (h : Overlap start m start' m') : Overlap start' m' start m := by
  obtain ⟨n, hn, hn'⟩ := h
  exact ⟨n, hn', hn⟩

theorem overlap_iff {width small start' : Nat} (hbits : bits ≤ width) (hsmall : small ≤ width)
    (hstart : start &&& mask width bits = start) (hstart' : start' &&& mask width small = start') :
    Overlap start (mask width bits) start' (mask width small) ↔
      start &&& mask width small = start' ∨ start' &&& mask width bits = start := by
  constructor
  · rintro ⟨n, rfl, rfl⟩
    rcases le_total bits small with hle | hle
    · left
      rw [Nat.and_assoc, mask_and_mask hle hsmall]
    · right
      rw [Nat.and_assoc, mask_and_mask hle hbits]
  · rintro (h | h)
    · exact ⟨start, hstart, h⟩
    · exact ⟨start', h, hstart'⟩

theorem or_and_mask (hle : bits ≤ width) (hstart : start &&& mask width bits = start)
    (hi : i < 2 ^ bits) : (start ||| i) &&& mask width bits = start := by
  have hzero : i &&& mask width bits = 0 := by
    rw [and_mask_eq hle, Nat.mod_eq_of_lt (hi.trans_le (Nat.pow_le_pow_right (by omega) hle)),
      Nat.div_eq_of_lt hi, Nat.zero_mul]
  rw [Nat.and_or_distrib_right, hstart, hzero, Nat.or_zero]

theorem or_eq_add (hle : bits ≤ width) (hstart : start &&& mask width bits = start)
    (hi : i < 2 ^ bits) : start ||| i = start + i := by
  have hdvd : 2 ^ bits ∣ start := by
    rw [← hstart, and_mask_eq hle]
    exact Nat.dvd_mul_left _ _
  obtain ⟨k, rfl⟩ := hdvd
  exact (Nat.two_pow_add_eq_or_of_lt hi k).symm

end

end Subnet
