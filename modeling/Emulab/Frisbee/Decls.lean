import Emulab.Lib.BitMap

/-! # Shared definitions of the frisbee client and server

  An image is broken into chunks, the standalone unit of decompression, and
  a chunk into blocks, the unit of transmission. The constants are those of
  a build without `JUMBO`.
-/

namespace Emulab.Frisbee

/-- Number of blocks in a chunk. -/
abbrev MAXCHUNKSIZE : Nat := 1024

/-- Number of bytes in a block. -/
abbrev MAXBLOCKSIZE : Nat := 1024

/-- Bits in a `char`. -/
abbrev CHAR_BIT : Nat := 8

/-- Number of read-ahead chunks that the client will request at a time. -/
abbrev MAXREADAHEAD : Nat := 2

/-- Number of chunks the client fills at the same time. -/
abbrev MAXINPROGRESS : Nat := 8

/-- Size in bytes of the map of a `BlockMap`. -/
abbrev BLOCKMAPSIZE : Nat := MAXCHUNKSIZE / CHAR_BIT

/-- One bit for each block of a chunk. -/
abbrev BlockMap := BitMap BLOCKMAPSIZE

/-- The contents of a block on the wire. -/
abbrev BlockBuf := Nat → BitVec 8

end Emulab.Frisbee
