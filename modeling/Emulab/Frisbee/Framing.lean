import Emulab.Frisbee.Packet
import Emulab.Imagezip.Disk

/-! # Datagrams and packets

  `PacketReceive` reads a datagram into the buffer of a packet, which keeps
  what it held behind the end of a short datagram, and `PacketValid` looks
  at the buffer. Both compare the signed length in the header with unsigned
  sizes. What follows from the comparisons is that an accepted packet was
  received whole, unless its length is one of `-16, ..., -1`.
-/

namespace Emulab.Frisbee

open MachineInt
open Imagezip (le32)

/-! ## Section 1: The packet in the buffer -/

/-- Bytes in the header of a packet. -/
abbrev SIZEOF_HDR : Nat := 16

/-- Bytes in a `Packet_t`: the longest body is padded to whole words. -/
abbrev SIZEOF_PACKET : Nat := SIZEOF_HDR + 1040

/-- An `int32_t` of the packet. -/
def int32At (p : List Byte) (i : Nat) : Int := toInt32 (le32 p i)

/-- The body, as its subtype has it. -/
def msgAt (p : List Byte) : Msg :=
  match int32At p 4 with
  | 1 => .join (le32 p 16)
  | 2 => .leave (le32 p 16) (int32At p 20)
  | 3 => .block (int32At p 16) (int32At p 20) fun i => p.getD (24 + i) 0
  | 4 => .request (int32At p 16) (int32At p 20) (int32At p 24)
  | 5 => .leave2 (le32 p 16) (int32At p 20)
  | 6 => .prequest (int32At p 16) (int32At p 20) ⟨Vector.ofFn fun i => p.getD (24 + i) 0⟩
  | 7 => .join2 (le32 p 16) (int32At p 20) (int32At p 24) (int32At p 28) (le32 p 32 + le32 p 36 * 2 ^ 32)
  | subtype => .unknown subtype

/-- The packet that the buffer holds. -/
def packetAt (p : List Byte) : Packet :=
  { type := int32At p 0, datalen := int32At p 8, srcip := le32 p 12, msg := msgAt p }

/-! ## Section 2: Receiving a datagram -/

/-- A datagram, with the address and port it comes from. -/
structure Datagram where
  addr : Nat
  port : Nat
  bytes : List Byte

/-- What the network level knows about its peer. -/
structure Net where
  mcastaddr : Nat
  /-- The port that the peer sends from. -/
  sndportnum : Nat

/-- `recvfrom`: at most the size of the buffer is received, and what is behind it stays. -/
def recvfrom (p : List Byte) (d : Datagram) : Nat × List Byte :=
  let data := d.bytes.take SIZEOF_PACKET
  (data.length, data ++ p.drop data.length)

/-- The packet comes from where it says; a packet from the multicast group is believed. -/
def sourceOk (net : Net) (d : Datagram) (srcip : Nat) : Bool :=
  let addr := if d.addr = net.mcastaddr then srcip else d.addr
  srcip = addr && net.sndportnum = d.port

/-- Read a datagram, or time out. The result is 0 for a good packet, 1 for a bad one, and -1 on
    timeout; the second component is the buffer afterwards. -/
def packetReceive (net : Net) (p : List Byte) : Option Datagram → Int × List Byte
  | none => (-1, p)
  | some d =>
    let (mlen, p) := recvfrom p d
    -- both sides are of type `size_t`
    if mlen < addU64 SIZEOF_HDR (toUInt64 (packetAt p).datalen) then (1, p)
    else if !sourceOk net d (packetAt p).srcip then (1, p)
    else (0, p)

/-- The datagram is received as a good packet, and the packet is valid. -/
def DatagramAccepted (net : Net) (nchunks : Int) (p : List Byte) (d : Datagram) : Prop :=
  (packetReceive net p (some d)).1 = 0 ∧ packetValid (packetAt (packetReceive net p (some d)).2) nchunks = true

instance (net : Net) (nchunks : Int) (p : List Byte) (d : Datagram) :
    Decidable (DatagramAccepted net nchunks p d) :=
  inferInstanceAs (Decidable (_ ∧ _))

/-- As many bytes are received as the header and the structure of the subtype have. -/
def Framed (p : List Byte) (d : Datagram) : Prop :=
  SIZEOF_HDR + (packetAt (recvfrom p d).2).msg.sizeof ≤ (recvfrom p d).1

instance (p : List Byte) (d : Datagram) : Decidable (Framed p d) :=
  inferInstanceAs (Decidable (_ ≤ _))

/-- A negative length for which the sum with the header's size wraps to one that the datagram has, although
    the structure of the subtype is not in it. Nothing else is wrong with the packet. -/
structure LengthWraps (net : Net) (nchunks : Int) (p : List Byte) (d : Datagram) : Prop where
  negative : (packetAt (recvfrom p d).2).datalen < 0
  /-- The sum is not negative and not more than what was received. -/
  sum : 0 ≤ SIZEOF_HDR + (packetAt (recvfrom p d).2).datalen ∧
    SIZEOF_HDR + (packetAt (recvfrom p d).2).datalen ≤ (recvfrom p d).1
  /-- The datagram ends within the structure. -/
  short : (recvfrom p d).1 < SIZEOF_HDR + (packetAt (recvfrom p d).2).msg.sizeof
  source : sourceOk net d (packetAt (recvfrom p d).2).srcip = true
  type : (packetAt (recvfrom p d).2).type = PKTTYPE_REQUEST ∨ (packetAt (recvfrom p d).2).type = PKTTYPE_REPLY
  fields : (packetAt (recvfrom p d).2).msg.inRange nchunks = true

/-! ## Section 3: The comparisons -/

theorem mlen_le (p : List Byte) (d : Datagram) : (recvfrom p d).1 ≤ SIZEOF_PACKET := by
  unfold recvfrom
  exact List.length_take_le _ _

theorem Msg.sizeof_le (msg : Msg) : msg.sizeof ≤ 1036 := by
  cases msg <;> simp [Msg.sizeof, MAXBLOCKSIZE, BLOCKMAPSIZE, MAXCHUNKSIZE, CHAR_BIT]

theorem datalen_range (p : List Byte) : -2 ^ 31 ≤ (packetAt p).datalen ∧ (packetAt p).datalen < 2 ^ 31 := by
  simp only [packetAt, int32At]
  exact toInt32_range _

theorem packetReceive_eq_zero {net : Net} {p : List Byte} {d : Datagram} : (packetReceive net p (some d)).1 = 0 ↔
      addU64 SIZEOF_HDR (toUInt64 (packetAt (recvfrom p d).2).datalen) ≤ (recvfrom p d).1 ∧
        sourceOk net d (packetAt (recvfrom p d).2).srcip = true := by
  unfold packetReceive
  simp only
  split
  · simp only [one_ne_zero, false_iff, not_and]
    omega
  · split
    · simp_all
    · simp_all

theorem packetReceive_buffer (net : Net) (p : List Byte) (d : Datagram) :
    (packetReceive net p (some d)).2 = (recvfrom p d).2 := by
  unfold packetReceive
  simp only
  split
  · rfl
  · split
    · rfl
    · rfl

theorem packetValid_eq_true {p : Packet} {nchunks : Int} : packetValid p nchunks = true ↔
      (p.type = PKTTYPE_REQUEST ∨ p.type = PKTTYPE_REPLY) ∧
        p.msg.sizeof ≤ toUInt64 p.datalen ∧ p.msg.inRange nchunks = true := by
  unfold packetValid
  simp [and_assoc]

theorem lengths_of_nonneg {datalen : Int} (h : 0 ≤ datalen) (hlt : datalen < 2 ^ 31) :
    (addU64 SIZEOF_HDR (toUInt64 datalen) : Int) = SIZEOF_HDR + datalen ∧ (toUInt64 datalen : Int) = datalen := by
  unfold addU64 toUInt64 toUnsigned SIZEOF_HDR
  omega

theorem lengths_of_negative {datalen : Int} (h : datalen < 0) (hle : -2 ^ 31 ≤ datalen) :
    (2 ^ 63 ≤ toUInt64 datalen) ∧ (0 ≤ SIZEOF_HDR + datalen →
        (addU64 SIZEOF_HDR (toUInt64 datalen) : Int) = SIZEOF_HDR + datalen) ∧
      (SIZEOF_HDR + datalen < 0 → 2 ^ 63 ≤ addU64 SIZEOF_HDR (toUInt64 datalen)) := by
  unfold addU64 toUInt64 toUnsigned SIZEOF_HDR
  omega

/-- **Framing.** An accepted datagram has the structure of its subtype in it, exactly if its
    length does not wrap. -/
theorem accepted_framed_iff (net : Net) (nchunks : Int) (p : List Byte) (d : Datagram) :
    (DatagramAccepted net nchunks p d → Framed p d) ↔ ¬LengthWraps net nchunks p d := by
  have hmlen := mlen_le p d
  have hsizeof := (packetAt (recvfrom p d).2).msg.sizeof_le
  have hrange := datalen_range (recvfrom p d).2
  have haccepted : DatagramAccepted net nchunks p d ↔
      (addU64 SIZEOF_HDR (toUInt64 (packetAt (recvfrom p d).2).datalen) ≤ (recvfrom p d).1 ∧
        sourceOk net d (packetAt (recvfrom p d).2).srcip = true) ∧
      ((packetAt (recvfrom p d).2).type = PKTTYPE_REQUEST ∨ (packetAt (recvfrom p d).2).type = PKTTYPE_REPLY) ∧
      (packetAt (recvfrom p d).2).msg.sizeof ≤ toUInt64 (packetAt (recvfrom p d).2).datalen ∧
      (packetAt (recvfrom p d).2).msg.inRange nchunks = true := by
    unfold DatagramAccepted
    rw [packetReceive_eq_zero, packetReceive_buffer, packetValid_eq_true]
  rw [haccepted]
  unfold Framed
  constructor
  · intro h hwraps
    -- the wrapped sum passes the first check, and the huge length the second
    obtain ⟨hhuge, hsum, -⟩ := lengths_of_negative hwraps.negative hrange.1
    have hsum := hsum hwraps.sum.1
    have hle := hwraps.sum.2
    have hframed := h ⟨⟨by omega, hwraps.source⟩, hwraps.type, by omega, hwraps.fields⟩
    have hshort := hwraps.short
    omega
  · intro h haccepted
    obtain ⟨⟨hlen, hsource⟩, htype, hdatalen, hfields⟩ := haccepted
    by_cases hneg : (packetAt (recvfrom p d).2).datalen < 0
    · obtain ⟨-, hsum, hwrapped⟩ := lengths_of_negative hneg hrange.1
      by_contra hshort
      by_cases hpos : 0 ≤ SIZEOF_HDR + (packetAt (recvfrom p d).2).datalen
      · have hsum := hsum hpos
        exact h ⟨hneg, ⟨hpos, by omega⟩, by omega, hsource, htype, hfields⟩
      · -- the sum wraps to more than any datagram has
        have hwrapped := hwrapped (by omega)
        omega
    · obtain ⟨hsum, heq⟩ := lengths_of_nonneg (by omega) hrange.2
      omega

/-- A header and no body: a block of chunk 0, by its subtype, with length -16. -/
def headerOnly : Datagram where
  addr := 0x0a000001
  port := 5000
  bytes := [2, 0, 0, 0, 3, 0, 0, 0, 0xf0, 0xff, 0xff, 0xff, 1, 0, 0, 0x0a]

/-- The header alone is accepted as a block. -/
theorem headerOnly_accepted : ¬∀ net nchunks p d, DatagramAccepted net nchunks p d → Framed p d := by
  intro h
  have hframed := h ⟨0xe0000001, 5000⟩ 1 (List.replicate SIZEOF_PACKET 0) headerOnly (by decide +kernel)
  exact absurd hframed (by decide +kernel)

end Emulab.Frisbee
