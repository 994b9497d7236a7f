import Mathlib.Data.Int.Basic
import Mathlib.Tactic

/-! # Two's complement machine integers

  C integer arithmetic is modelled by `Int` with an explicit conversion
  wherever a value is stored in a fixed-width type. A conversion of an
  in-range value is the identity, so arithmetic that stays in range is
  plain integer arithmetic.
-/

namespace MachineInt

abbrev Byte := BitVec 8

/-- Conversion to a signed integer of `w` bits. -/
def toSigned (w : Nat) (x : Int) : Int := x.bmod (2 ^ w)

/-- Conversion to C's `int` (and `int32_t`). -/
def toInt32 (x : Int) : Int := toSigned 32 x

/-- Conversion to C's `int64_t` (and `off_t`). -/
def toInt64 (x : Int) : Int := toSigned 64 x

/-- Conversion to an unsigned integer of `w` bits. -/
def toUnsigned (w : Nat) (x : Int) : Nat := (x % 2 ^ w).toNat

/-- Conversion to C's `uint32_t`. -/
def toUInt32 (x : Int) : Nat := toUnsigned 32 x

/-- Conversion to C's `uint64_t` (and `size_t`). -/
def toUInt64 (x : Int) : Nat := toUnsigned 64 x

/-- Addition of `uint32_t` values. -/
def addU32 (a b : Nat) : Nat := (a + b) % 2 ^ 32

/-- Subtraction of `uint32_t` values. -/
def subU32 (a b : Nat) : Nat := (a + (2 ^ 32 - b % 2 ^ 32)) % 2 ^ 32

/-- Addition of `uint64_t` values. -/
def addU64 (a b : Nat) : Nat := (a + b) % 2 ^ 64

/-- Subtraction of `uint64_t` values. -/
def subU64 (a b : Nat) : Nat := (a + (2 ^ 64 - b % 2 ^ 64)) % 2 ^ 64

/-! ## Conversions of values that are in range -/

theorem addU32_of_lt {a b : Nat} (h : a + b < 2 ^ 32) : addU32 a b = a + b :=
  Nat.mod_eq_of_lt h

theorem subU32_of_le {a b : Nat} (hba : b ≤ a) (ha : a < 2 ^ 32) : subU32 a b = a - b := by
  unfold subU32
  omega

theorem addU64_of_lt {a b : Nat} (h : a + b < 2 ^ 64) : addU64 a b = a + b :=
  Nat.mod_eq_of_lt h

theorem subU64_of_le {a b : Nat} (hba : b ≤ a) (ha : a < 2 ^ 64) : subU64 a b = a - b := by
  unfold subU64
  omega

theorem toInt32_of_range {x : Int} (hlo : -2 ^ 31 ≤ x) (hhi : x < 2 ^ 31) : toInt32 x = x := by
  unfold toInt32 toSigned
  apply Int.bmod_eq_of_le <;> omega

theorem toInt64_of_range {x : Int} (hlo : -2 ^ 63 ≤ x) (hhi : x < 2 ^ 63) : toInt64 x = x := by
  unfold toInt64 toSigned
  apply Int.bmod_eq_of_le <;> omega

theorem toInt32_range (x : Int) : -2 ^ 31 ≤ toInt32 x ∧ toInt32 x < 2 ^ 31 := by
  unfold toInt32 toSigned
  have hlo := Int.le_bmod (x := x) (m := 2 ^ 32) (by decide)
  have hhi := Int.bmod_lt (x := x) (m := 2 ^ 32) (by decide)
  constructor <;> omega

/-- A 32-bit value differs from what was stored by a multiple of `2 ^ 32`. -/
theorem exists_toInt32_eq (x : Int) : ∃ k : Int, toInt32 x = x + 2 ^ 32 * k := by
  refine ⟨-((x + 2 ^ 31) / 2 ^ 32), ?_⟩
  unfold toInt32 toSigned
  rw [Int.bmod_def]
  split <;> omega

/-! ## C division, which truncates towards zero -/

theorem tdiv_nonpos_of_neg {x n : Int} (hn : 0 < n) (hx : x < 0) : x.tdiv n ≤ 0 := by
  have h : 0 ≤ (-x).tdiv n := Int.tdiv_nonneg (by omega) (by omega)
  rw [Int.neg_tdiv] at h
  omega

/-- A positive quotient of a nonnegative dividend is the rounded-down one. -/
theorem tdiv_eq_ediv_of_pos {x n : Int} (hn : 0 < n) (h : 0 < x.tdiv n) : 0 ≤ x ∧ x.tdiv n = x / n := by
  have hx : 0 ≤ x := by
    by_contra hx
    have := tdiv_nonpos_of_neg hn (by omega : x < 0)
    omega
  exact ⟨hx, Int.tdiv_eq_ediv_of_nonneg hx⟩

end MachineInt
