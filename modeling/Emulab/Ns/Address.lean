import Emulab.Lib.Bytes
import Emulab.Lib.Subnet

/-! # Addresses of the NS parser

  The parser keeps addresses and masks as the text that the NS file has. It
  computes with the number that `inet_atohl` makes of it, and writes numbers
  back with `inet_hltoa`.
-/

namespace Emulab.Ns

open Bytes

/-- Text of the NS file. -/
abbrev Text := List Char

/-! ## Text and numbers -/

/-- `%d` of `scan`, for a piece that consists of digits. -/
def scanDigits (piece : Text) : Option Nat :=
  if piece ≠ [] ∧ piece.all Char.isDigit then some (Nat.ofDigitChars 10 piece 0) else none

/-- `inet_atohl`. The texts that reach it are those that `IP` accepts and those
    that the parser wrote itself; anything else is the error "Invalid ip". -/
def inetAtohl (ip : Text) : Option Nat :=
  match (ip.splitOn '.').map scanDigits with
  | [some a, some b, some c, some d] => some (a <<< 24 ||| b <<< 16 ||| c <<< 8 ||| d)
  | _ => none

/-- `$a.$b.$c.$d` -/
def dotted (a b c d : Nat) : Text :=
  ['.'].intercalate [Nat.toDigits 10 a, Nat.toDigits 10 b, Nat.toDigits 10 c, Nat.toDigits 10 d]

def inetHltoa (ip : Nat) : Text :=
  dotted (ip >>> 24 % 256) (ip >>> 16 % 256) (ip >>> 8 % 256) (ip % 256)

/-- The regular expression `IP`: four groups of one to three digits. -/
def IP (ip : Text) : Prop :=
  (ip.splitOn '.').length = 4 ∧
    ∀ piece ∈ ip.splitOn '.', 1 ≤ piece.length ∧ piece.length ≤ 3 ∧ piece.all Char.isDigit

instance (ip : Text) : Decidable (IP ip) := inferInstanceAs (Decidable (_ ∧ _))

theorem scanDigits_toDigits (n : Nat) : scanDigits (Nat.toDigits 10 n) = some n := by
  have hdigits : (Nat.toDigits 10 n).all Char.isDigit := by
    rw [List.all_eq_true]
    intro c hc
    exact Nat.isDigit_of_mem_toDigits (by omega) (by omega) hc
  rw [scanDigits, if_pos ⟨Nat.toDigits_ne_nil, hdigits⟩, Nat.ofDigitChars_ten_toDigits]

theorem splitOn_dotted (a b c d : Nat) : (dotted a b c d).splitOn '.' =
      [Nat.toDigits 10 a, Nat.toDigits 10 b, Nat.toDigits 10 c, Nat.toDigits 10 d] := by
  refine List.splitOn_intercalate '.' ?_ (by simp)
  intro piece hpiece
  simp only [List.mem_cons, List.not_mem_nil, or_false] at hpiece
  rcases hpiece with rfl | rfl | rfl | rfl <;> exact dot_notMem_toDigits _

theorem inetAtohl_dotted (a b c d : Nat) :
    inetAtohl (dotted a b c d) = some (a <<< 24 ||| b <<< 16 ||| c <<< 8 ||| d) := by
  rw [inetAtohl, splitOn_dotted]
  simp only [List.map_cons, List.map_nil, scanDigits_toDigits]

theorem inetAtohl_inetHltoa (n : Nat) : inetAtohl (inetHltoa n) = some (n % 2 ^ 32) := by
  rw [inetHltoa, inetAtohl_dotted, bytes_eq]

theorem inetHltoa_ne_nil (n : Nat) : inetHltoa n ≠ [] := by
  intro h
  have := inetAtohl_inetHltoa n
  rw [h] at this
  cases this

theorem IP.hasNumber {ip : Text} (h : IP ip) : ∃ n, inetAtohl ip = some n := by
  obtain ⟨hlen, hpieces⟩ := h
  have hscan : ∀ piece ∈ ip.splitOn '.', ∃ n, scanDigits piece = some n := by
    intro piece hpiece
    obtain ⟨hpos, -, hdigits⟩ := hpieces piece hpiece
    have hne : piece ≠ [] := by
      rintro rfl
      simp at hpos
    exact ⟨_, if_pos ⟨hne, hdigits⟩⟩
  unfold inetAtohl
  match hsplit : ip.splitOn '.', hlen with
  | [a, b, c, d], _ =>
    rw [hsplit] at hscan
    obtain ⟨na, ha⟩ := hscan a (by simp)
    obtain ⟨nb, hb⟩ := hscan b (by simp)
    obtain ⟨nc, hc⟩ := hscan c (by simp)
    obtain ⟨nd, hd⟩ := hscan d (by simp)
    simp only [List.map_cons, List.map_nil, ha, hb, hc, hd]
    exact ⟨_, rfl⟩

end Emulab.Ns
