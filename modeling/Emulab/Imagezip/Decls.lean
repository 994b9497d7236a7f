import Emulab.Lib.Extent
import Emulab.Lib.MachineInt
import Emulab.Lib.Outcome

/-! # Shared definitions of the image tools

  Disk addresses are counted in sectors of 512 bytes, and kept in unsigned
  32-bit variables.
-/

namespace Emulab.Imagezip

open MachineInt Outcome

/-- Bytes in a sector. -/
abbrev SECSIZE : Nat := 512

/-- The byte offset of a sector. -/
def sectobytes (s : Nat) : Nat := s * SECSIZE

/-- The sector of a byte offset. -/
def bytestosec (b : Nat) : Nat := b / SECSIZE

abbrev Range := Extent

/-- The sector behind a range, as the code computes it. -/
def rangeEnd (r : Range) : Nat := addU32 r.start r.size

theorem rangeEnd_eq {r : Range} (h : r.stop < 2 ^ 32) : rangeEnd r = r.stop :=
  addU32_of_lt h

/-- Why a function does not return a result. -/
inductive Failure where
  | assertion
  /-- The function reports an error. -/
  | error
deriving DecidableEq

def assert (p : Bool) : Except Failure Unit := if p then .ok () else .error .assertion

theorem assert_ok {p : Bool} {u : Unit} (h : assert p = .ok u) : p = true := by
  unfold assert at h
  split at h
  · assumption
  · contradiction

@[simp] theorem assert_true : assert true = .ok () := rfl

/-- An assertion that holds is passed. -/
theorem yields_assert {m : Prop} {p : Bool} (h : m ∨ p = true) : Yields m (assert p) fun _ => p = true := by
  cases p with
  | true => exact rfl
  | false => exact h.resolve_right Bool.false_ne_true

/-- The second part goes on with the result of the first one. -/
theorem bind_of_ok {α β : Type} {x : Except Failure α} {f : α → Except Failure β} {a : α}
    (h : x = .ok a) : (x >>= f) = f a := by
  subst h
  rfl

/-- A computation that returns has returned from its first part. -/
theorem bind_ok {α β : Type} {x : Except Failure α} {f : α → Except Failure β} {b : β}
    (h : (x >>= f) = .ok b) : ∃ a, x = .ok a ∧ f a = .ok b := by
  cases x with
  | error e => contradiction
  | ok a => exact ⟨a, rfl, h⟩

/-- The bytes of a device or file between two offsets. -/
def readBytes (disk : Nat → Byte) (offset count : Nat) : List Byte :=
  (List.range count).map fun i => disk (offset + i)

@[simp] theorem sectobytes_add (s t : Nat) : sectobytes (s + t) = sectobytes s + sectobytes t :=
  Nat.add_mul s t SECSIZE

theorem sectobytes_le {s t : Nat} (h : s ≤ t) : sectobytes s ≤ sectobytes t :=
  Nat.mul_le_mul_right SECSIZE h

@[simp] theorem length_readBytes (disk : Nat → Byte) (offset count : Nat) :
    (readBytes disk offset count).length = count := by
  simp [readBytes]

end Emulab.Imagezip
