import Emulab.Frisbee.Decls
import Emulab.Lib.MachineInt

/-! # Packets

  The packets that client and server exchange, and the check that every
  received packet must pass.
-/

namespace Emulab.Frisbee

open MachineInt

/-- How often `PacketReceive` times out in a second. -/
abbrev TIMEOUT_HZ : Int := 1000000 / 30000

abbrev PKTTYPE_REQUEST : Int := 1

abbrev PKTTYPE_REPLY : Int := 2

/-- The body of a packet; which one it is, is the packet's subtype. -/
inductive Msg where
  /-- Join the team. The word is the client's id, or in a reply the number of blocks in the file. -/
  | join (clientid : Nat)
  | leave (clientid : Nat) (elapsed : Int)
  | block (chunk block : Int) (buf : BlockBuf)
  | request (chunk block count : Int)
  /-- Leave, with the client's parameters and statistics. -/
  | leave2 (clientid : Nat) (elapsed : Int)
  | prequest (chunk retries : Int) (blockmap : BlockMap)
  /-- Join, with the sizes that the server provides. -/
  | join2 (clientid : Nat) (blockcount chunksize blocksize : Int) (bytecount : Nat)
  | unknown (subtype : Int)

/-- Size in bytes of the body. -/
def Msg.sizeof : Msg → Nat
  | .join _ => 4
  | .leave _ _ => 8
  | .block _ _ _ => 8 + MAXBLOCKSIZE
  | .request _ _ _ => 12
  | .leave2 _ _ => 1036
  | .prequest _ _ _ => 8 + BLOCKMAPSIZE
  | .join2 _ _ _ _ _ => 24
  | .unknown _ => 0

structure Packet where
  type : Int
  /-- Useful amount of data in the packet. -/
  datalen : Int
  /-- The sender; filled in by the network level. -/
  srcip : Nat
  msg : Msg

/-- A packet of the given type whose length is right. -/
def mkPacket (type : Int) (srcip : Nat) (msg : Msg) : Packet :=
  { type := type, datalen := msg.sizeof, srcip := srcip, msg := msg }

/-- The fields of a body are in range. -/
def Msg.inRange (nchunks : Int) : Msg → Bool
  | .block chunk blk _ => !(chunk < 0 || nchunks ≤ chunk || blk < 0 || MAXCHUNKSIZE ≤ blk)
  | .request chunk blk count =>
    !(chunk < 0 || nchunks ≤ chunk || blk < 0 || MAXCHUNKSIZE ≤ blk || count < 0 ||
      MAXCHUNKSIZE < toInt32 (blk + count))
  | .prequest chunk _ _ => !(chunk < 0 || nchunks ≤ chunk)
  | .join .. | .join2 .. | .leave .. | .leave2 .. => true
  | .unknown _ => false

/-- Whether a received packet is accepted. The length is compared as an unsigned number. -/
def packetValid (p : Packet) (nchunks : Int) : Bool :=
  (p.type = PKTTYPE_REQUEST || p.type = PKTTYPE_REPLY) &&
    !(toUInt64 p.datalen < p.msg.sizeof) && p.msg.inRange nchunks

theorem inRange_of_packetValid {p : Packet} {nchunks : Int} (h : packetValid p nchunks = true) :
    p.msg.inRange nchunks = true := by
  unfold packetValid at h
  rw [Bool.and_eq_true] at h
  exact h.2

end Emulab.Frisbee
