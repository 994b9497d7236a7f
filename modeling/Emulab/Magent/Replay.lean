import Emulab.Magent.SaveLoad

/-! # The replay log

  A run writes commands of the monitor and the packets that it captures to a
  log, each behind a header. A replay reads them, and tells the sensors of the
  connections. What the sensors do is not modelled.
-/

namespace Emulab.Magent

open MachineInt Wire

variable {n : Nat}

/-! ## Section 1: Writing -/

abbrev NEW_CONNECTION_COMMAND : Byte := 0
abbrev SENSOR_COMMAND : Byte := 3
abbrev DELETE_CONNECTION_COMMAND : Byte := 6
abbrev PACKET_INFO_SEND_COMMAND : Byte := 255
abbrev PACKET_INFO_ACK_COMMAND : Byte := 254

def PREFIX_SIZE : Nat := 4

/-- The size of the identifier in a header of this version. -/
def versionSize (version : Byte) : Nat := if version = 0 then VERSION_0_SIZE else idSize

/-- `Header::headerSize`; the version is that of the last command of the monitor. -/
def headerSize (version : Byte) : Nat := PREFIX_SIZE + versionSize version

/-- The size in the header has 16 bits, and is that of the buffer. `none` if it is too small, or
    a pointer cannot be followed. -/
def replayWritePacket (version : Byte) (mem : Memory) (packet : PacketInfo n) : Option (List Byte) := do
  let census ← savePacket none mem packet
  let size := census.count.setWidth 16
  let (_, head) ← (saveHeader ⟨packet.packetType, size, version, packet.elab_key⟩).run ⟨some [], 0⟩
  let headBuffer ← head.buffer
  let out ← savePacket (some []) mem packet
  let packetBuffer ← out.buffer
  if size.toNat < packetBuffer.length then none
  else some (headBuffer.take (headerSize version) ++ packetBuffer)

abbrev Key := List.Vector Byte idSize

/-- The commands that are written, as the monitor sends them, and packets. -/
inductive Recorded (n : Nat) where
  | newConnection (key : Key) (protocol : Byte)
  | deleteConnection (key : Key)
  | sensor (key : Key) (type : BitVec 32)
  | packet (mem : Memory) (packet : PacketInfo n)

/-- What is written, if the file can be written. -/
def replayWriteCommand (version : Byte) (head body : List Byte) : List Byte := head.take (headerSize version) ++ body

/-- A command of version 1. -/
def commandBytes (type : Byte) (key : Key) (body : List Byte) : List Byte :=
  replayWriteCommand 1 (headerBytes ⟨type, BitVec.ofNat 16 body.length, 1, key⟩) body

def Recorded.bytes : Recorded n → Option (List Byte)
  | .newConnection key protocol => some (commandBytes NEW_CONNECTION_COMMAND key [protocol])
  | .deleteConnection key => some (commandBytes DELETE_CONNECTION_COMMAND key [])
  | .sensor key type => some (commandBytes SENSOR_COMMAND key (intBytes type))
  | .packet mem p => replayWritePacket 1 mem p

/-! ## Section 2: Reading -/

/-- The variables of `replayLoop`. -/
structure Replay (n : Nat) where
  headerBuffer : List Byte
  head : Header
  packetBuffer : List Byte
  packet : PacketInfo n
  payload : ByteVector

/-- What the sensors of a connection are told. -/
inductive Played (n : Nat) where
  | newConnection (key : Key)
  | deleteConnection (key : Key)
  | addSensor (key : Key) (type : BitVec 32)
  | capturePacket (key : Key) (packet : PacketInfo n)

/-- It is an error to read nothing, but not to read less than `size` bytes. -/
def replayRead (dest : List Byte) (size : Nat) : Loader (List Byte) := fun bytes =>
  if bytes.take size = [] then none
  else some (bytes.take size ++ dest.drop (bytes.take size).length, bytes.drop size)

def replayReadHeader (dest : List Byte) : Loader (List Byte) := do
  let dest ← replayRead dest PREFIX_SIZE
  let version := dest.getD (PREFIX_SIZE - 1) 0
  if version = 0 ∨ version = 1 then do
    let key ← replayRead (dest.drop PREFIX_SIZE) (versionSize version)
    return dest.take PREFIX_SIZE ++ key
  else failure

/-- Load from the front of a buffer. -/
def fromBuffer {α : Type} (load : Loader α) (buffer : List Byte) : Loader α := StateT.lift (load.run' buffer)

/-- What a turn of the loop does with a header. The user may have named the sensors of all
    connections. -/
def replayCommand (A : Allocator) (named : Bool) (s : Replay n) : Loader (Replay n × List (Played n)) :=
  if s.head.type = NEW_CONNECTION_COMMAND then do
    let packetBuffer ← replayRead s.packetBuffer 1
    return ({ s with packetBuffer := packetBuffer }, [.newConnection s.head.key])
  else if s.head.type = DELETE_CONNECTION_COMMAND then
    return (s, [.deleteConnection s.head.key])
  else if s.head.type = SENSOR_COMMAND then do
    let packetBuffer ← replayRead s.packetBuffer 4
    let type ← fromBuffer loadInt packetBuffer
    return ({ s with packetBuffer := packetBuffer }, if named then [] else [.addSensor s.head.key type])
  else if s.head.type = PACKET_INFO_SEND_COMMAND ∨ s.head.type = PACKET_INFO_ACK_COMMAND then do
    let packetBuffer ← replayRead s.packetBuffer s.head.size.toNat
    let (packet, payload) ← fromBuffer (loadPacket A s.packet s.payload s.head.version) packetBuffer
    return ({ s with packetBuffer := packetBuffer, packet := packet, payload := payload },
      [.capturePacket s.head.key packet])
  else failure

/-- A turn of the loop; `none` if it is done, or loads what is not in a buffer. -/
def replayTurn (A : Allocator) (named : Bool) (s : Replay n) : Loader (Replay n × List (Played n)) := do
  let headerBuffer ← replayReadHeader s.headerBuffer
  let head ← fromBuffer (loadHeader s.head) headerBuffer
  replayCommand A named { s with
    headerBuffer := headerBuffer, head := head, packetBuffer := resized s.packetBuffer head.size.toNat }

def replayLoop (A : Allocator) (named : Bool) : Nat → Replay n → List Byte → List (Played n)
  | 0, _, _ => []
  | turns + 1, s, bytes =>
    match (replayTurn A named s).run bytes with
    | none => []
    | some ((s, played), rest) => played ++ replayLoop A named turns s rest

/-! ## Section 3: The replay of a log -/

/-- A packet is sound, and less than 64 KiB are saved of it. -/
def Recorded.Ok : Recorded n → Prop
  | .packet mem p => p.WellFormed mem ∧
      (p.packetType = PACKET_INFO_SEND_COMMAND ∨ p.packetType = PACKET_INFO_ACK_COMMAND) ∧
      ∀ out ∈ savePacket (some []) mem p, ∀ bytes ∈ out.buffer, bytes.length < 2 ^ 16
  | _ => True

/-- A record is played as it was recorded, but for the pointer to the payload of a packet. -/
def Recorded.PlaysAs (named : Bool) : Recorded n → List (Played n) → Prop
  | .newConnection key _, played => played = [.newConnection key]
  | .deleteConnection key, played => played = [.deleteConnection key]
  | .sensor key type, played => played = if named then [] else [.addSensor key type]
  | .packet _ p, played => ∃ pointer, played = [.capturePacket p.elab_key { p with payload := pointer }]

theorem replayRead_undoes (dest bytes : List Byte) (hpos : 0 < bytes.length) :
    Undoes (replayRead dest bytes.length) bytes (bytes ++ dest.drop bytes.length) := by
  intro rest
  show replayRead dest bytes.length (bytes ++ rest) = _
  unfold replayRead
  rw [List.take_left, if_neg (List.ne_nil_of_length_pos hpos), List.drop_left]

theorem length_headerBytes (head : Header) : (headerBytes head).length = headerSize 1 :=
  congrArg (· + PREFIX_SIZE) head.key.toList_length

theorem replayReadHeader_undoes {head : Header} (hversion : head.version = 1) {dest : List Byte}
    (hdest : dest.length = headerSize 1) : Undoes (replayReadHeader dest) (headerBytes head) (headerBytes head) := by
  let front := [head.type] ++ shortBytes head.size ++ [head.version]
  have hget : (front ++ dest.drop PREFIX_SIZE).getD (PREFIX_SIZE - 1) 0 = 1 := hversion
  have hnil : (dest.drop PREFIX_SIZE).drop head.key.toList.length = [] := by
    rw [List.drop_drop, head.key.toList_length]
    exact List.drop_eq_nil_of_le hdest.le
  have hkey := replayRead_undoes (dest.drop PREFIX_SIZE) head.key.toList (by rw [head.key.toList_length]; decide)
  rw [hnil, List.append_nil, head.key.toList_length] at hkey
  have hread : Undoes (replayRead dest PREFIX_SIZE) front (front ++ dest.drop PREFIX_SIZE) :=
    replayRead_undoes dest front (Nat.succ_pos 3)
  apply hread.bind
  dsimp only
  rw [hget, if_pos (Or.inr rfl)]
  exact hkey.bind_pure _

/-- Loading from a buffer takes nothing off the log. -/
theorem fromBuffer_undoes {α : Type} {load : Loader α} {bytes : List Byte} {a : α} (h : Undoes load bytes a)
    (rest : List Byte) : Undoes (fromBuffer load (bytes ++ rest)) [] a := by
  intro log
  simp [fromBuffer, h rest]

/-- A body is read into a buffer, and a value is loaded from there. -/
theorem replayRead_fromBuffer {α β : Type} {load : Loader α} (dest : List Byte) {bytes : List Byte} {size : Nat}
    {a : α} (f : List Byte → α → β) (hsize : bytes.length = size) (hpos : 0 < size) (h : Undoes load bytes a) :
    ∃ buffer, Undoes (do
      let buffer ← replayRead dest size
      let a ← fromBuffer load buffer
      pure (f buffer a)) bytes (f buffer a) := by
  subst hsize
  have hload := (fromBuffer_undoes h (dest.drop bytes.length)).bind_pure (f (bytes ++ dest.drop bytes.length))
  refine ⟨bytes ++ dest.drop bytes.length, fun log => ?_⟩
  rw [StateT.run_bind, replayRead_undoes dest bytes hpos log]
  exact hload log

theorem replayTurn_of_command {A : Allocator} {named : Bool} {s : Replay n} {head : Header}
    (hversion : head.version = 1) (hbuffer : s.headerBuffer.length = headerSize 1) {body : List Byte}
    {P : List (Played n) → Prop} (h : ∃ x, Undoes (replayCommand A named { s with
      headerBuffer := headerBytes head, head := head, packetBuffer := resized s.packetBuffer head.size.toNat }) body x ∧
        x.1.headerBuffer = headerBytes head ∧ P x.2) :
    ∃ x, Undoes (replayTurn A named s) ((headerBytes head).take (headerSize 1) ++ body) x ∧
      x.1.headerBuffer.length = headerSize 1 ∧ P x.2 := by
  obtain ⟨x, hx, hsame, hP⟩ := h
  have hhead := fromBuffer_undoes (loadHeader_undoes hversion s.head) []
  rw [List.append_nil] at hhead
  rw [List.take_of_length_le (length_headerBytes head).le]
  exact ⟨x, (replayReadHeader_undoes hversion hbuffer).bind (hhead.bind hx), hsame ▸ length_headerBytes head, hP⟩

/-- A turn of the replay takes a record off the log. -/
theorem replayTurn_undoes (A : Allocator) (named : Bool) {r : Recorded n} (hr : r.Ok) {s : Replay n}
    (hbuffer : s.headerBuffer.length = headerSize 1) : ∃ bytes, r.bytes = some bytes ∧
      ∃ x, Undoes (replayTurn A named s) bytes x ∧ x.1.headerBuffer.length = headerSize 1 ∧ r.PlaysAs named x.2 := by
  cases r with
  | newConnection key protocol =>
    refine ⟨_, rfl, replayTurn_of_command rfl hbuffer ?_⟩
    unfold replayCommand
    rw [if_pos rfl]
    exact ⟨_, (replayRead_undoes _ [protocol] Nat.one_pos).bind_pure _, rfl, rfl⟩
  | deleteConnection key =>
    refine ⟨_, rfl, replayTurn_of_command rfl hbuffer ?_⟩
    unfold replayCommand
    rw [if_neg (by decide : DELETE_CONNECTION_COMMAND ≠ NEW_CONNECTION_COMMAND), if_pos rfl]
    exact ⟨_, undoes_pure _, rfl, rfl⟩
  | sensor key type =>
    refine ⟨_, rfl, replayTurn_of_command rfl hbuffer ?_⟩
    unfold replayCommand
    rw [if_neg (by decide : SENSOR_COMMAND ≠ NEW_CONNECTION_COMMAND),
      if_neg (by decide : SENSOR_COMMAND ≠ DELETE_CONNECTION_COMMAND), if_pos rfl]
    obtain ⟨buffer, hread⟩ := replayRead_fromBuffer _ _ (rfl : (intBytes type).length = 4) (Nat.succ_pos 3)
      (loadInt_undoes type)
    exact ⟨_, hread, rfl, rfl⟩
  | packet mem p =>
    obtain ⟨hp, htype, hsmall⟩ := hr
    obtain ⟨payload, hlength, -, hsave⟩ := savePacket_spec hp
    have hload := loadPacket_undoes A hp s.packet s.payload hlength
    have hsmall : (packetBytes p payload).length < 2 ^ 16 := hsmall _ (hsave _) _ rfl
    have hpos : 0 < (packetBytes p payload).length := by simp [packetBytes]
    generalize packetBytes p payload = bytes at *
    have hsize : (BitVec.ofNat 16 bytes.length).toNat = bytes.length := by
      rw [BitVec.toNat_ofNat, Nat.mod_eq_of_lt hsmall]
    have hcensus : ((0 : BitVec 32) + BitVec.ofNat 32 bytes.length).setWidth 16 = BitVec.ofNat 16 bytes.length := by
      rw [← BitVec.toNat_inj]
      simp
    let head : Header := ⟨p.packetType, BitVec.ofNat 16 bytes.length, 1, p.elab_key⟩
    have hwrite : replayWritePacket 1 mem p = some ((headerBytes head).take (headerSize 1) ++ bytes) := by
      unfold replayWritePacket
      simp only [hsave, Out.append, Option.bind_eq_bind, Option.bind_some, hcensus]
      rw [saveHeader_writes rfl]
      simp [hsize, Out.append, head]
    refine ⟨_, hwrite, replayTurn_of_command rfl hbuffer ?_⟩
    have hnot : ∀ type : Byte, type < 254 → p.packetType ≠ type := by
      rintro type hlt rfl
      rcases htype with h | h <;> rw [h] at hlt <;> exact absurd hlt (by decide)
    unfold replayCommand
    rw [if_neg (hnot _ (by decide)), if_neg (hnot _ (by decide)), if_neg (hnot _ (by decide)), if_pos htype]
    obtain ⟨buffer, hread⟩ := replayRead_fromBuffer (resized s.packetBuffer head.size.toNat) _ hsize.symm
      (by rwa [hsize]) hload
    exact ⟨_, hread, rfl, _, rfl⟩

/-- A connection with a sensor, and a datagram. -/
def shortLog : List (Recorded 104) :=
  [.newConnection zeroHeader.key 17, .sensor zeroHeader.key 3, .packet oneByte (datagram 1)]

end Emulab.Magent
