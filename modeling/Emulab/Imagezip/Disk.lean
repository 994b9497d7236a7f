import Emulab.Imagezip.Decls

/-! # The disk that an image is made of

  The readers of file systems read it block by block, as bytes and as numbers with the least
  byte first. -/

namespace Emulab.Imagezip

open MachineInt

/-- The bytes of a disk, or of a file that is one. -/
structure Disk where
  byte : Nat → Byte
  size : Nat

/-- A disk that is zero but for some bytes. -/
def diskOf (bytes : List (Nat × Byte)) (size : Nat) : Disk where
  byte pos := (bytes.lookup pos).getD 0
  size := size

/-- So many bytes from a position on, if there are so many. -/
def devread (disk : Disk) (pos nbytes : Nat) : Option (List Byte) :=
  if nbytes = 0 ∨ pos + nbytes ≤ disk.size then some (readBytes disk.byte pos nbytes) else none

theorem eq_of_devread {disk : Disk} {pos nbytes : Nat} {buffer : List Byte} (h : devread disk pos nbytes = some buffer) :
    buffer = readBytes disk.byte pos nbytes := by
  unfold devread at h
  split at h
  · exact (Option.some.inj h).symm
  · nomatch h

/-- Product of `uint32_t` values. -/
def mulU32 (a b : Nat) : Nat := a * b % 2 ^ 32

theorem mulU32_of_lt {a b : Nat} (h : a * b < 2 ^ 32) : mulU32 a b = a * b :=
  Nat.mod_eq_of_lt h

def u8 (buffer : List Byte) (i : Nat) : Nat := (buffer.getD i 0).toNat

def le16 (buffer : List Byte) (i : Nat) : Nat := u8 buffer i + u8 buffer (i + 1) * 2 ^ 8

def le32 (buffer : List Byte) (i : Nat) : Nat := le16 buffer i + le16 buffer (i + 2) * 2 ^ 16

theorem u8_lt (buffer : List Byte) (i : Nat) : u8 buffer i < 2 ^ 8 := (buffer.getD i 0).isLt

theorem le16_lt (buffer : List Byte) (i : Nat) : le16 buffer i < 2 ^ 16 := by
  have := u8_lt buffer i
  have := u8_lt buffer (i + 1)
  unfold le16
  omega

end Emulab.Imagezip
