import Mathlib.Tactic

/-! # Bytes and decimals

  A word of four bytes: the bytes that are shifted into place make up the word, and
  those of a word make up that word again. The decimal digits of a byte have no dot,
  so that four of them with dots between are taken apart at the dots.
-/

namespace Bytes

theorem dot_notMem_toDigits (n : Nat) : '.' ∉ Nat.toDigits 10 n := by
  intro h
  have := Nat.isDigit_of_mem_toDigits (by omega) (by omega) h
  simp at this

theorem byte_or (n k : Nat) : (n >>> k % 256) <<< k ||| n % 2 ^ k = n % 2 ^ (k + 8) := by
  have hsplit : n % 2 ^ (k + 8) = n % 2 ^ k + 2 ^ k * (n / 2 ^ k % 2 ^ 8) := by
    rw [pow_add, Nat.mod_mul]
  rw [show (2 : Nat) ^ 8 = 256 from rfl] at hsplit
  have hlt : n % 2 ^ k < 2 ^ k := Nat.mod_lt _ (by positivity)
  rw [hsplit, Nat.shiftRight_eq_div_pow, Nat.shiftLeft_eq, Nat.mul_comm _ (2 ^ k),
    ← Nat.two_pow_add_eq_or_of_lt hlt, Nat.add_comm]

theorem or_bytes_eq {b c d : Nat} (a : Nat) (hb : b < 256) (hc : c < 256) (hd : d < 256) :
    a <<< 24 ||| b <<< 16 ||| c <<< 8 ||| d = 2 ^ 24 * a + 2 ^ 16 * b + 2 ^ 8 * c + d := by
  have hd' : c <<< 8 ||| d = 2 ^ 8 * c + d := by
    rw [Nat.shiftLeft_eq, Nat.mul_comm]
    exact (Nat.two_pow_add_eq_or_of_lt (by omega) _).symm
  have hc' : b <<< 16 ||| (2 ^ 8 * c + d) = 2 ^ 16 * b + (2 ^ 8 * c + d) := by
    rw [Nat.shiftLeft_eq, Nat.mul_comm]
    exact (Nat.two_pow_add_eq_or_of_lt (by omega) _).symm
  have hb' : a <<< 24 ||| (2 ^ 16 * b + (2 ^ 8 * c + d)) = 2 ^ 24 * a + (2 ^ 16 * b + (2 ^ 8 * c + d)) := by
    rw [Nat.shiftLeft_eq, Nat.mul_comm]
    exact (Nat.two_pow_add_eq_or_of_lt (by omega) _).symm
  rw [Nat.or_assoc, Nat.or_assoc, hd', hc', hb']
  omega

theorem bytes_eq (n : Nat) :
    (n >>> 24 % 256) <<< 24 ||| (n >>> 16 % 256) <<< 16 ||| (n >>> 8 % 256) <<< 8 ||| n % 256 = n % 2 ^ 32 := by
  have h8 : (n >>> 8 % 256) <<< 8 ||| n % 256 = n % 2 ^ 16 := byte_or n 8
  rw [Nat.or_assoc, Nat.or_assoc, h8, byte_or n 16, byte_or n 24]

end Bytes
