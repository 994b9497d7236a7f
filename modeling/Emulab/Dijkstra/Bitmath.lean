import Mathlib.Data.List.TakeWhile
import Emulab.Dijkstra.SingleSource
import Emulab.Lib.Bytes

/-! # Addresses as text

  `ipToString` and `stringToIP`, which the address assigner has word for word as
  well. The loop of `stringToIP` reads a number and then looks for a dot; what it
  finds of the dot takes the place of what it found of the number. So all texts
  with three dots are taken for addresses.
-/

namespace Emulab

open List

namespace Dijkstra

open Bytes

abbrev Text : Type := List Char

/-! ## Section 1: Model -/

def ipToString (ip : IPAddress) : Text :=
  [3, 2, 1, 0].flatMap fun i =>
    Nat.toDigits 10 ((ip >>> (i * 8)) &&& 0x000000FF#32).toNat ++ if 0 < i then ['.'] else []

def isSpace (c : Char) : Bool := c ∈ [' ', '\t', '\n', '\r', Char.ofNat 11, Char.ofNat 12]

/-- A sign in front of a number -/
def readSign : Text → Bool × Text
  | '-' :: s => (true, s)
  | '+' :: s => (false, s)
  | s => (false, s)

/-- `buffer >> current`, for a stream with the text `s`: white space is skipped, then come a sign and
    digits. A number that does not fit leaves the largest one, and no number leaves 0. -/
def readUnsigned (s : Text) : Nat :=
  let (negative, s) := readSign (s.dropWhile isSpace)
  let n := Nat.ofDigitChars 10 (s.takeWhile Char.isDigit) 0
  if 2 ^ 32 ≤ n then 2 ^ 32 - 1
  else if negative then (2 ^ 32 - n) % 2 ^ 32
  else n

/-- The loop of `stringToIP` with `k` iterations left; `rest` is the source from the
    index on. `none` is the exception. -/
def octetLoop : Nat → Text → IPAddress → Option IPAddress
  | 0, _, result => some result
  | k + 1, rest, result =>
    let current := readUnsigned rest
    let result := if current ≤ 0xff then result ||| BitVec.ofNat 32 current <<< (k * 8) else result
    -- here `success` is set anew
    match rest.dropWhile (· ≠ '.') with
    | [] => if k = 0 then some result else none
    | _ :: rest => if k = 0 then none else octetLoop k rest result

def stringToIP (source : Text) : Option IPAddress := octetLoop 4 source 0

/-! ## Section 2: What it is for -/

def octet (piece : Text) : Option Nat :=
  if piece ≠ [] ∧ piece.all Char.isDigit ∧ Nat.ofDigitChars 10 piece 0 ≤ 255 then
    some (Nat.ofDigitChars 10 piece 0)
  else none

/-- Four decimal octets with a dot between one and the next, and their big-endian word -/
def dottedQuad (s : Text) : Option IPAddress :=
  match (s.splitOn '.').map octet with
  | [some a, some b, some c, some d] => some (BitVec.ofNat 32 (2 ^ 24 * a + 2 ^ 16 * b + 2 ^ 8 * c + d))
  | _ => none

/-! ## Section 3: The loop -/

theorem upToDot (s : Text) : s.dropWhile (· ≠ '.') = [] ∧ s.takeWhile (· ≠ '.') = s ∨
      ∃ rest, s.dropWhile (· ≠ '.') = '.' :: rest ∧ s.takeWhile (· ≠ '.') ++ '.' :: rest = s := by
  have happend := takeWhile_append_dropWhile (p := fun c => decide (c ≠ '.')) (l := s)
  cases hdrop : s.dropWhile (· ≠ '.') with
  | nil =>
    rw [hdrop, append_nil] at happend
    exact Or.inl ⟨rfl, happend⟩
  | cons c rest =>
    have hdot : c = '.' := by
      have hhead := List.head?_dropWhile_not (fun c => decide (c ≠ '.')) s
      rw [hdrop] at hhead
      simpa using hhead
    subst hdot
    rw [hdrop] at happend
    exact Or.inr ⟨rest, rfl, happend⟩

theorem splitOn_eq (s : Text) : s.splitOn '.' = s.takeWhile (· ≠ '.') ::
    match s.dropWhile (· ≠ '.') with
    | [] => []
    | _ :: rest => rest.splitOn '.' := by
  have hnot : '.' ∉ s.takeWhile (· ≠ '.') := by
    intro h
    have hne := all_eq_true.mp all_takeWhile '.' h
    simp at hne
  obtain ⟨hdrop, htake⟩ | ⟨rest, hdrop, htake⟩ := upToDot s
  · rw [hdrop]
    rw [htake] at hnot ⊢
    exact splitOn_eq_singleton hnot
  · rw [hdrop]
    have hsplit := splitOn_append_cons_self_of_not_mem hnot rest
    rwa [htake] at hsplit

theorem length_splitOn (s : Text) : (s.splitOn '.').length = s.count '.' + 1 := by
  induction s with
  | nil => rfl
  | cons c s ih =>
    rw [splitOn_cons_eq_if_modifyHead]
    by_cases hdot : c = '.'
    · subst hdot
      simp [ih]
    · have hbeq : (c == '.') = false := by simpa using hdot
      rw [hbeq, count_cons_of_ne (by simpa using hdot)]
      simp [ih]

/-- No number goes past a dot. -/
theorem readUnsigned_append_dot (piece rest : Text) :
    readUnsigned (piece ++ '.' :: rest) = readUnsigned piece := by
  have hspace : (piece ++ '.' :: rest).dropWhile isSpace = piece.dropWhile isSpace ++ '.' :: rest := by
    rw [dropWhile_append]
    split
    · next hnil =>
      rw [isEmpty_iff.mp hnil]
      rfl
    · rfl
  -- what is left after the sign is empty or goes on up to the dot
  have hsign : ∀ x : Text, readSign (x ++ '.' :: rest) = ((readSign x).1, (readSign x).2 ++ '.' :: rest) := by
    intro x
    match x with
    | [] => rfl
    | c :: x =>
      by_cases hminus : c = '-'
      · subst hminus
        rfl
      · by_cases hplus : c = '+'
        · subst hplus
          rfl
        · simp [readSign, hminus, hplus]
  have hdigits : ∀ x : Text, (x ++ '.' :: rest).takeWhile Char.isDigit = x.takeWhile Char.isDigit := by
    intro x
    rw [takeWhile_append]
    split
    · next hall =>
      have hdot : ('.' :: rest).takeWhile Char.isDigit = [] := rfl
      rw [hdot, append_nil]
      exact (List.Sublist.eq_of_length (takeWhile_sublist _) hall).symm
    · rfl
  unfold readUnsigned
  simp only [hspace, hsign, hdigits]

/-- One number of the loop: what does not fit a byte is left out. -/
def putOctet (k : Nat) (current : Nat) (result : IPAddress) : IPAddress :=
  if current ≤ 0xff then result ||| BitVec.ofNat 32 current <<< (k * 8) else result

/-- The numbers of the pieces, put below each other from byte `k` on. -/
def putOctets : Nat → List Text → IPAddress → IPAddress
  | _, [], result => result
  | k, piece :: pieces, result => putOctets (k - 1) pieces (putOctet k (readUnsigned piece) result)

theorem readUnsigned_takeWhile (s : Text) : readUnsigned s = readUnsigned (s.takeWhile (· ≠ '.')) := by
  obtain ⟨-, htake⟩ | ⟨rest, -, htake⟩ := upToDot s
  · rw [htake]
  · have hread := readUnsigned_append_dot (s.takeWhile (· ≠ '.')) rest
    rwa [htake] at hread

theorem octetLoop_eq (k : Nat) (rest : Text) (result : IPAddress) : octetLoop (k + 1) rest result =
      if (rest.splitOn '.').length = k + 1 then some (putOctets k (rest.splitOn '.') result) else none := by
  -- the last iteration must find no dot, every other one must find one
  induction k generalizing rest result with
  | zero =>
    rw [octetLoop, splitOn_eq rest, readUnsigned_takeWhile rest]
    cases rest.dropWhile (· ≠ '.') with
    | nil => simp [putOctets, putOctet]
    | cons c rest' => simp [splitOn_ne_nil]
  | succ k ih =>
    rw [octetLoop, splitOn_eq rest, readUnsigned_takeWhile rest]
    cases rest.dropWhile (· ≠ '.') with
    | nil => simp
    | cons c rest' => simp [ih, putOctets, putOctet]

/-! ## Section 4: Octets -/

theorem readUnsigned_octet {piece : Text} {n : Nat} (h : octet piece = some n) :
    readUnsigned piece = n ∧ n < 256 := by
  unfold octet at h
  split at h
  · next hoctet =>
    obtain ⟨hne, hall, hle⟩ := hoctet
    cases h
    -- an octet begins with a digit, which is neither white space nor a sign
    have hspace : piece.dropWhile isSpace = piece := by
      cases piece with
      | nil => rfl
      | cons c piece =>
        have hdigit : c.isDigit := all_eq_true.mp hall c (by simp)
        have hnot : isSpace c = false := by
          by_contra hspace
          rw [Bool.not_eq_false, isSpace, decide_eq_true_eq] at hspace
          simp only [mem_cons, not_mem_nil, or_false] at hspace
          rcases hspace with rfl | rfl | rfl | rfl | rfl | rfl <;> revert hdigit <;> decide
        rw [dropWhile_cons, hnot]
        rfl
    have hsign : readSign piece = (false, piece) := by
      match piece, hne with
      | c :: piece, _ =>
        have hdigit : c.isDigit := all_eq_true.mp hall c (by simp)
        have hminus : c ≠ '-' := by
          rintro rfl
          revert hdigit
          decide
        have hplus : c ≠ '+' := by
          rintro rfl
          revert hdigit
          decide
        simp [readSign, hminus, hplus]
    have hdigits : piece.takeWhile Char.isDigit = piece := by
      rw [takeWhile_eq_self_iff]
      exact fun c hc => all_eq_true.mp hall c hc
    have hsmall : ¬2 ^ 32 ≤ Nat.ofDigitChars 10 piece 0 := by omega
    refine ⟨?_, by omega⟩
    unfold readUnsigned
    simp only [hspace, hsign, hdigits, hsmall, ↓reduceIte, Bool.false_eq_true]
  · cases h

theorem octet_toDigits {n : Nat} (h : n < 256) : octet (Nat.toDigits 10 n) = some n := by
  have hdigits : (Nat.toDigits 10 n).all Char.isDigit := by
    rw [all_eq_true]
    intro c hc
    exact Nat.isDigit_of_mem_toDigits (by omega) (by omega) hc
  have hvalue : Nat.ofDigitChars 10 (Nat.toDigits 10 n) 0 = n := Nat.ofDigitChars_ten_toDigits
  rw [octet, hvalue, if_pos ⟨Nat.toDigits_ne_nil, hdigits, by omega⟩]

theorem putOctets_bytes {a b c d : Nat} (ha : a < 256) (hb : b < 256) (hc : c < 256) (hd : d < 256) :
    putOctet 0 d (putOctet 1 c (putOctet 2 b (putOctet 3 a 0))) =
      BitVec.ofNat 32 (2 ^ 24 * a + 2 ^ 16 * b + 2 ^ 8 * c + d) := by
  unfold putOctet
  rw [if_pos (by omega), if_pos (by omega), if_pos (by omega), if_pos (by omega)]
  rw [← or_bytes_eq a hb hc hd]
  -- none of the shifts loses a bit
  apply BitVec.eq_of_toNat_eq
  have ha' : a <<< 24 < 2 ^ 32 := by rw [Nat.shiftLeft_eq]; omega
  have hb' : b <<< 16 < 2 ^ 32 := by rw [Nat.shiftLeft_eq]; omega
  have hc' : c <<< 8 < 2 ^ 32 := by rw [Nat.shiftLeft_eq]; omega
  have hor : a <<< 24 ||| b <<< 16 ||| c <<< 8 ||| d < 2 ^ 32 :=
    Nat.or_lt_two_pow (Nat.or_lt_two_pow (Nat.or_lt_two_pow ha' hb') hc') (by omega)
  rw [BitVec.toNat_ofNat, Nat.mod_eq_of_lt hor]
  simp only [BitVec.toNat_or, BitVec.toNat_shiftLeft, BitVec.toNat_ofNat]
  simp (disch := omega) only [Nat.mod_eq_of_lt]
  rw [show (0 : IPAddress).toNat = 0 from rfl, Nat.zero_or, Nat.zero_mul, Nat.shiftLeft_zero]

/-- What is an address is read as that address. -/
theorem stringToIP_of_dottedQuad {s : Text} {ip : IPAddress} (h : dottedQuad s = some ip) :
    stringToIP s = some ip := by
  unfold dottedQuad at h
  split at h
  · next a b c d hpieces =>
    obtain ⟨pa, _, hs, ha, hrest⟩ := map_eq_cons_iff.mp hpieces
    obtain ⟨pb, _, rfl, hb, hrest⟩ := map_eq_cons_iff.mp hrest
    obtain ⟨pc, _, rfl, hc, hrest⟩ := map_eq_cons_iff.mp hrest
    obtain ⟨pd, _, rfl, hd, hrest⟩ := map_eq_cons_iff.mp hrest
    rw [map_eq_nil_iff] at hrest
    subst hrest
    obtain ⟨hra, hla⟩ := readUnsigned_octet ha
    obtain ⟨hrb, hlb⟩ := readUnsigned_octet hb
    obtain ⟨hrc, hlc⟩ := readUnsigned_octet hc
    obtain ⟨hrd, hld⟩ := readUnsigned_octet hd
    have hlen : [pa, pb, pc, pd].length = 3 + 1 := rfl
    rw [stringToIP, octetLoop_eq, hs, if_pos hlen]
    simp only [putOctets, hra, hrb, hrc, hrd]
    rw [putOctets_bytes hla hlb hlc hld]
    exact h
  · cases h

/-- The text of an address is one of the address. -/
theorem dottedQuad_ipToString (ip : IPAddress) : dottedQuad (ipToString ip) = some ip := by
  have hbyte : ∀ i : Nat, ((ip >>> (i * 8)) &&& 0x000000FF#32).toNat = ip.toNat >>> (i * 8) % 256 := by
    intro i
    rw [BitVec.toNat_and, BitVec.toNat_ushiftRight]
    exact Nat.and_two_pow_sub_one_eq_mod _ 8
  have hsplit : (ipToString ip).splitOn '.' = [3, 2, 1, 0].map fun i =>
      Nat.toDigits 10 (ip.toNat >>> (i * 8) % 256) := by
    have htext : ipToString ip = ['.'].intercalate ([3, 2, 1, 0].map fun i =>
        Nat.toDigits 10 (ip.toNat >>> (i * 8) % 256)) := by
      simp [ipToString, hbyte, List.intercalate]
    rw [htext]
    refine splitOn_intercalate '.' ?_ (by simp)
    intro piece hpiece
    rw [mem_map] at hpiece
    obtain ⟨i, -, rfl⟩ := hpiece
    exact dot_notMem_toDigits _
  have hlt : ∀ n : Nat, n % 256 < 256 := fun n => Nat.mod_lt n (by omega)
  rw [dottedQuad, hsplit]
  simp only [map_cons, map_nil, octet_toDigits (hlt _)]
  rw [← or_bytes_eq _ (hlt _) (hlt _) (hlt _)]
  rw [Nat.zero_mul, Nat.shiftRight_zero, Nat.one_mul]
  rw [bytes_eq, Nat.mod_eq_of_lt ip.isLt, BitVec.ofNat_toNat, BitVec.setWidth_eq]

/-! ## Section 5: The addresses that are read -/

theorem isSome_stringToIP (s : Text) : (stringToIP s).isSome ↔ s.count '.' = 3 := by
  rw [stringToIP, octetLoop_eq, length_splitOn]
  split
  · next h => simpa using h
  · next h => simpa using h

/-- An address is read back as it was written. Reading agrees with what it is for exactly on
    addresses and on texts with more or fewer dots than three. -/
theorem stringToIP_ipToString (ip : IPAddress) (s : Text) : stringToIP (ipToString ip) = some ip ∧
      (stringToIP s = dottedQuad s ↔ (dottedQuad s).isSome ∨ s.count '.' ≠ 3) := by
  refine ⟨stringToIP_of_dottedQuad (dottedQuad_ipToString ip), ?_⟩
  constructor
  · intro heq
    by_cases hdots : s.count '.' = 3
    · exact Or.inl (heq ▸ (isSome_stringToIP s).mpr hdots)
    · exact Or.inr hdots
  · intro h
    cases hquad : dottedQuad s with
    | some ip => exact stringToIP_of_dottedQuad hquad
    | none =>
      rw [hquad] at h
      have hdots : s.count '.' ≠ 3 := by simpa using h
      rw [← Option.not_isSome_iff_eq_none, isSome_stringToIP]
      exact hdots

/-- A number over 255 counts for nothing, and what has no digits at all as well. -/
theorem reads_no_address : stringToIP ['1', '.', '2', '.', '3', '.', '9', '9', '9'] = some 0x01020300 ∧
    dottedQuad ['1', '.', '2', '.', '3', '.', '9', '9', '9'] = none ∧
    stringToIP ['.', 'x', '.', '.'] = some 0 ∧ dottedQuad ['.', 'x', '.', '.'] = none := by
  decide +kernel

end Dijkstra

end Emulab
