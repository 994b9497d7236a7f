import Emulab.Lib.MachineInt
import Emulab.Lib.Wire

/-! # The packet log of the agent

  Headers and packets are saved field by field and loaded field by field.
  The agent is a 32-bit program: `size_t` and `time_t` have 32 bits. The
  structures of the system are copied as they are in memory.
-/

namespace Emulab.Magent

open MachineInt Wire

/-! ## Section 1: Data -/

def TCP_CONNECTION : Byte := 0

def UDP_CONNECTION : Byte := 1

def idSize : Nat := 32

/-- `Header::VERSION_0_SIZE` -/
def VERSION_0_SIZE : Nat := 8

structure Header where
  type : Byte
  size : BitVec 16
  version : Byte
  key : List.Vector Byte idSize

structure PacketOption where
  type : Byte
  data : List Byte
  small : data.length ≤ 255

/-- A list has fewer nodes than there are addresses. -/
abbrev OptionList := { options : List PacketOption // options.length < 2 ^ 32 }

/-- `none` is the null pointer. -/
abbrev Pointer := Option Nat

/-- What can be read from an address on. -/
abbrev Memory := Nat → List Byte

def Memory.at (mem : Memory) (p : Pointer) : List Byte := p.elim [] mem

def Memory.read (mem : Memory) (p : Pointer) (size : Nat) : Option (List.Vector Byte size) :=
  if h : size ≤ (mem.at p).length then some ⟨(mem.at p).take size, List.length_take_of_le h⟩ else none

/-- `n` is the size of `tcp_info`. -/
structure PacketInfo (n : Nat) where
  transport : Byte
  tv_sec : BitVec 32
  tv_usec : BitVec 32
  packetLength : BitVec 32
  kernel : Option (List.Vector Byte n)
  ip : List.Vector Byte 20
  ipOptions : OptionList
  tcp : Option (List.Vector Byte 20)
  tcpOptions : Option OptionList
  udp : Option (List.Vector Byte 8)
  payloadSize : BitVec 32
  payload : Pointer
  elab_key : List.Vector Byte idSize
  bufferFull : Bool
  packetType : Byte

/-! ## Section 2: Saving -/

/-- The counter is an `int`. -/
abbrev Saver := Save Byte 32

def saveBuffer {size : Nat} (input : Option (List.Vector Byte size)) : Saver := fun out =>
  match out.buffer, input with
  | none, _ => some ((), ⟨none, out.count + BitVec.ofNat 32 size⟩)
  | some _, some bytes => some ((), out.append bytes.toList)
  | some _, none => none

def saveChar (value : Byte) : Saver := saveBuffer (some ⟨[value], rfl⟩)

/-- In network byte order. -/
def saveShort (value : BitVec 16) : Saver :=
  saveBuffer (some ⟨[value.extractLsb' 8 8, value.extractLsb' 0 8], rfl⟩)

def saveInt (value : BitVec 32) : Saver :=
  saveBuffer (some ⟨[value.extractLsb' 24 8, value.extractLsb' 16 8, value.extractLsb' 8 8,
    value.extractLsb' 0 8], rfl⟩)

def saveHeader (value : Header) : Saver := do
  saveChar value.type
  saveShort value.size
  saveChar value.version
  if value.version < 1 then
    saveBuffer (some (value.key.take VERSION_0_SIZE))
  else saveBuffer (some value.key)

def saveOption (current : PacketOption) : Saver := do
  saveChar current.type
  saveChar (BitVec.ofNat 8 current.data.length)
  if current.data.length > 0 then saveBuffer (some ⟨current.data, rfl⟩) else pure ()

def saveOptions (options : OptionList) : Saver := do
  saveInt (BitVec.ofNat 32 options.val.length)
  options.val.forM saveOption

section

variable {n : Nat}

/-- A null pointer to a list cannot be followed. -/
def saveOptionsAt : Option OptionList → Saver
  | some options => saveOptions options
  | none => failure

/-- The fields that `savePacket` saves. -/
def saveFields (mem : Memory) (value : PacketInfo n) : Saver := do
  saveChar value.transport
  saveInt value.tv_sec
  saveInt value.tv_usec
  saveInt value.packetLength
  onlyIf (value.transport = TCP_CONNECTION) (saveBuffer value.kernel)
  saveBuffer (some value.ip)
  saveOptions value.ipOptions
  onlyIf (value.transport = TCP_CONNECTION) do
    saveBuffer value.tcp
    saveOptionsAt value.tcpOptions
  onlyIf (value.transport = UDP_CONNECTION) (saveBuffer value.udp)
  saveInt value.payloadSize
  saveBuffer (mem.read value.payload value.payloadSize.toNat)
  saveBuffer (some value.elab_key)
  saveChar (if value.bufferFull then 1 else 0)
  saveChar value.packetType

/-- The counter starts from zero for each packet. -/
def savePacket (buffer : Option (List Byte)) (mem : Memory) (value : PacketInfo n) : Option (Out Byte 32) :=
  ((saveFields mem value).run ⟨buffer, 0⟩).map Prod.snd

end

/-! ## Section 3: Loading -/

abbrev Loader := Load Byte

def loadBuffer (size : Nat) : Loader (List.Vector Byte size) := take size

def loadChar : Loader Byte := List.Vector.head <$> loadBuffer 1

/-- `ntohs` -/
def hostShort (b : List.Vector Byte 2) : BitVec 16 := b.get 0 ++ b.get 1

def loadShort : Loader (BitVec 16) := hostShort <$> loadBuffer 2

/-- `ntohl` -/
def hostInt (b : List.Vector Byte 4) : BitVec 32 := b.get 0 ++ (b.get 1 ++ (b.get 2 ++ b.get 3))

def loadInt : Loader (BitVec 32) := hostInt <$> loadBuffer 4

/-- The identifier, which was shorter in version 0. Other versions leave it as it is. -/
def loadKey (version : Byte) (key : List.Vector Byte idSize) : Loader (List.Vector Byte idSize) :=
  if version = 0 then do
    let id ← loadBuffer VERSION_0_SIZE
    return (id ++ List.Vector.replicate (idSize - VERSION_0_SIZE) (0 : Byte) :
      List.Vector Byte (VERSION_0_SIZE + (idSize - VERSION_0_SIZE)))
  else if version = 1 then loadBuffer idSize
  else return key

def loadHeader (value : Header) : Loader Header := do
  let type ← loadChar
  let size ← loadShort
  let version ← loadChar
  let key ← loadKey version value.key
  return ⟨type, size, version, key⟩

/-- The buffer of an option is a part of the input. -/
def loadOption : Loader PacketOption := do
  let type ← loadChar
  let length ← loadChar
  if length.toNat > 0 then do
    let data ← loadBuffer length.toNat
    return ⟨type, data.toList, by simpa using Nat.le_of_lt_succ length.isLt⟩
  else return ⟨type, [], Nat.zero_le _⟩

def loadOptions : Loader OptionList := do
  let limit ← loadInt
  let options ← times loadOption limit.toNat
  return ⟨options.toList, by simpa using limit.isLt⟩

/-- `std::vector<unsigned char>` -/
structure ByteVector where
  begin : Pointer
  data : List Byte
  capacity : Nat
  fits : data.length ≤ capacity
  room : begin = none → capacity = 0

/-- What the allocator gives a vector that grows. The old block is still there when the new one is
    allocated. -/
structure Allocator where
  address : Pointer → Nat → Nat
  capacity : Nat → Nat
  fresh : ∀ old size, some (address old size) ≠ old
  enough : ∀ size, size ≤ capacity size

/-- The block of the vector is all that can be read. A block that it has left has been freed. -/
def ByteVector.memory (v : ByteVector) : Memory := fun a => if v.begin = some a then v.data else []

/-- New elements are 0. -/
def resized (data : List Byte) (size : Nat) : List Byte :=
  (data ++ List.replicate (size - data.length) 0).take size

@[simp] theorem length_resized (data : List Byte) (size : Nat) : (resized data size).length = size := by
  simp only [resized, List.length_take, List.length_append, List.length_replicate]
  omega

def ByteVector.resize (A : Allocator) (v : ByteVector) (size : Nat) : ByteVector :=
  if h : size ≤ v.capacity then { v with data := resized v.data size, fits := by simpa using h }
  else ⟨some (A.address v.begin size), resized v.data size, A.capacity size, by simpa using A.enough size,
    fun h => nomatch h⟩

def ByteVector.load (v : ByteVector) : Loader ByteVector := do
  let bytes ← loadBuffer v.data.length
  return { v with data := bytes.toList, fits := by simpa using v.fits }

section

variable {n : Nat}

/-- `value` is what the structure holds before, `payload` the vector for the payload. -/
def loadPacket (A : Allocator) (value : PacketInfo n) (payload : ByteVector) (version : Byte) :
    Loader (PacketInfo n × ByteVector) := do
  -- the vector is resized later
  let pointer := if version < 1 then none else payload.begin
  let transport ← (if version < 1 then pure TCP_CONNECTION else loadChar)
  let timeSeconds ← loadInt
  let timeMicroseconds ← loadInt
  let packetLength ← loadInt
  let kernel ← optional (transport = TCP_CONNECTION) (loadBuffer n)
  let ip ← loadBuffer 20
  let ipOptions ← loadOptions
  let tcp ← optional (transport = TCP_CONNECTION) (loadBuffer 20)
  let tcpOptions ← optional (transport = TCP_CONNECTION) loadOptions
  let udp ← optional (transport = UDP_CONNECTION) (loadBuffer 8)
  let payloadSize ← (if version < 1 then pure 0 else loadInt)
  let payload ←
    (if version < 1 then pure payload else (payload.resize A payloadSize.toNat).load)
  let key ← loadKey version value.elab_key
  let bufferFull ← loadChar
  let packetType ← loadChar
  return ({
    transport := transport
    tv_sec := timeSeconds
    tv_usec := timeMicroseconds
    packetLength := packetLength
    kernel := kernel
    ip := ip
    ipOptions := ipOptions
    tcp := tcp
    tcpOptions := tcpOptions
    udp := udp
    payloadSize := payloadSize
    payload := pointer
    elab_key := key
    bufferFull := bufferFull = 1
    packetType := packetType }, payload)

end

/-! ## Section 4: What is written -/

def shortBytes (value : BitVec 16) : List Byte := [value.extractLsb' 8 8, value.extractLsb' 0 8]

def intBytes (value : BitVec 32) : List Byte :=
  [value.extractLsb' 24 8, value.extractLsb' 16 8, value.extractLsb' 8 8, value.extractLsb' 0 8]

def headerBytes (value : Header) : List Byte :=
  [value.type] ++ (shortBytes value.size ++ ([value.version] ++ value.key.toList))

def optionBytes (current : PacketOption) : List Byte :=
  [current.type] ++ ([BitVec.ofNat 8 current.data.length] ++ current.data)

def optionsBytes (options : OptionList) : List Byte :=
  intBytes (BitVec.ofNat 32 options.val.length) ++ options.val.flatMap optionBytes

section Fields

theorem saveBuffer_writes {size : Nat} (bytes : List.Vector Byte size) :
    Writes (saveBuffer (some bytes)) bytes.toList := by
  intro out
  obtain ⟨buffer, count⟩ := out
  cases buffer with
  | none => simp [saveBuffer, Out.append, StateT.run]
  | some written => rfl

theorem saveChar_writes (value : Byte) : Writes (saveChar value) [value] := saveBuffer_writes _

theorem saveShort_writes (value : BitVec 16) : Writes (saveShort value) (shortBytes value) :=
  saveBuffer_writes _

theorem saveInt_writes (value : BitVec 32) : Writes (saveInt value) (intBytes value) :=
  saveBuffer_writes _

theorem saveHeader_writes {value : Header} (h : value.version = 1) :
    Writes (saveHeader value) (headerBytes value) := by
  unfold saveHeader
  rw [if_neg (by rw [h]; decide)]
  exact (saveChar_writes _).bind <| (saveShort_writes _).bind <| (saveChar_writes _).bind <| saveBuffer_writes _

theorem saveOption_writes (current : PacketOption) : Writes (saveOption current) (optionBytes current) := by
  refine (saveChar_writes _).bind <| (saveChar_writes _).bind ?_
  by_cases h : current.data.length > 0
  · rw [if_pos h]
    exact saveBuffer_writes ⟨current.data, rfl⟩
  · rw [if_neg h, List.length_eq_zero_iff.mp (Nat.eq_zero_of_not_pos h)]
    exact writes_pure

theorem saveOptions_writes (options : OptionList) : Writes (saveOptions options) (optionsBytes options) :=
  (saveInt_writes _).bind <| Writes.forM _ fun current _ => saveOption_writes current

theorem loadBuffer_undoes {size : Nat} (bytes : List.Vector Byte size) :
    Undoes (loadBuffer size) bytes.toList bytes := undoes_take bytes

theorem loadChar_undoes (value : Byte) : Undoes loadChar [value] value :=
  (loadBuffer_undoes ⟨[value], rfl⟩).map List.Vector.head

theorem loadShort_undoes (value : BitVec 16) : Undoes loadShort (shortBytes value) value := by
  have hvalue : hostShort (⟨shortBytes value, rfl⟩ : List.Vector Byte 2) = value := by
    show value.extractLsb' 8 8 ++ value.extractLsb' 0 8 = value
    exact BitVec.extractLsb'_append_extractLsb'
  have h := (loadBuffer_undoes (⟨shortBytes value, rfl⟩ : List.Vector Byte 2)).map hostShort
  rwa [hvalue] at h

theorem loadInt_undoes (value : BitVec 32) : Undoes loadInt (intBytes value) value := by
  have hvalue : hostInt (⟨intBytes value, rfl⟩ : List.Vector Byte 4) = value := by
    show value.extractLsb' 24 8 ++ (value.extractLsb' 16 8 ++
      (value.extractLsb' 8 8 ++ value.extractLsb' 0 8)) = value
    have h₁ : value.extractLsb' 8 8 ++ value.extractLsb' 0 8 = value.extractLsb' 0 16 :=
      BitVec.extractLsb'_append_extractLsb'_eq_extractLsb' rfl
    have h₂ : value.extractLsb' 16 8 ++ value.extractLsb' 0 16 = value.extractLsb' 0 24 :=
      BitVec.extractLsb'_append_extractLsb'_eq_extractLsb' rfl
    have h₃ : value.extractLsb' 24 8 ++ value.extractLsb' 0 24 = value.extractLsb' 0 32 :=
      BitVec.extractLsb'_append_extractLsb'_eq_extractLsb' rfl
    exact (congrArg (value.extractLsb' 24 8 ++ ·) ((congrArg (value.extractLsb' 16 8 ++ ·) h₁).trans h₂)).trans
      (h₃.trans BitVec.extractLsb'_eq_self)
  have h := (loadBuffer_undoes (⟨intBytes value, rfl⟩ : List.Vector Byte 4)).map hostInt
  rwa [hvalue] at h

theorem loadHeader_undoes {value : Header} (h : value.version = 1) (old : Header) :
    Undoes (loadHeader old) (headerBytes value) value := by
  obtain ⟨type, size, version, key⟩ := value
  obtain rfl : version = 1 := h
  have hkey : Undoes (loadKey 1 old.key) key.toList key := loadBuffer_undoes key
  refine (loadChar_undoes type).bind <| (loadShort_undoes size).bind <| (loadChar_undoes 1).bind ?_
  exact hkey.bind_pure fun key => (⟨type, size, 1, key⟩ : Header)

theorem loadOption_undoes (current : PacketOption) : Undoes loadOption (optionBytes current) current := by
  obtain ⟨type, data, small⟩ := current
  have hlength : (BitVec.ofNat 8 data.length).toNat = data.length :=
    Nat.mod_eq_of_lt (Nat.lt_succ_of_le small)
  refine (loadChar_undoes type).bind <| (loadChar_undoes _).bind ?_
  generalize BitVec.ofNat 8 data.length = length at hlength ⊢
  by_cases h : length.toNat > 0
  · rw [if_pos h]
    exact (loadBuffer_undoes ⟨data, hlength.symm⟩).bind_pure _
  · rw [if_neg h]
    have hnil : data = [] := List.length_eq_zero_iff.mp (by omega)
    subst hnil
    exact undoes_pure _

theorem loadOptions_undoes (options : OptionList) : Undoes loadOptions (optionsBytes options) options := by
  obtain ⟨options, hlt⟩ := options
  have hlimit : options.length = (BitVec.ofNat 32 options.length).toNat := (Nat.mod_eq_of_lt hlt).symm
  refine (loadInt_undoes _).bind ?_
  have htimes := Undoes.times (⟨options, hlimit⟩ : List.Vector _ _) fun current _ => loadOption_undoes current
  exact htimes.bind_pure _

end Fields

/-! ## Section 5: Packets -/

section Packets

variable {n : Nat} {mem : Memory} {p : PacketInfo n}

/-- What goes with the transport is there, and the payload can be read. -/
structure PacketInfo.WellFormed (mem : Memory) (p : PacketInfo n) : Prop where
  transport : p.transport = TCP_CONNECTION ∨ p.transport = UDP_CONNECTION
  kernel : p.kernel.isSome ↔ p.transport = TCP_CONNECTION
  tcp : p.tcp.isSome ↔ p.transport = TCP_CONNECTION
  tcpOptions : p.tcpOptions.isSome ↔ p.transport = TCP_CONNECTION
  udp : p.udp.isSome ↔ p.transport = UDP_CONNECTION
  payload : p.payloadSize.toNat ≤ (mem.at p.payload).length

def PacketInfo.payloadBytes (mem : Memory) (p : PacketInfo n) : Option (List Byte) :=
  (mem.read p.payload p.payloadSize.toNat).map List.Vector.toList

def packetBytes (p : PacketInfo n) (payload : List Byte) : List Byte :=
  [p.transport] ++ (intBytes p.tv_sec ++ (intBytes p.tv_usec ++ (intBytes p.packetLength ++
    (p.kernel.elim [] List.Vector.toList ++ (p.ip.toList ++ (optionsBytes p.ipOptions ++
    (p.tcp.elim [] List.Vector.toList ++ (p.tcpOptions.elim [] optionsBytes ++
    (p.udp.elim [] List.Vector.toList ++ (intBytes p.payloadSize ++ (payload ++ (p.elab_key.toList ++
    ([if p.bufferFull then 1 else 0] ++ [p.packetType])))))))))))))

theorem saveBuffer_writes_of_eq {size : Nat} {input : Option (List.Vector Byte size)}
    (bytes : List.Vector Byte size) (h : input = some bytes) : Writes (saveBuffer input) bytes.toList := by
  rw [h]
  exact saveBuffer_writes bytes

theorem saveFields_writes (hp : p.WellFormed mem) {payload : List.Vector Byte p.payloadSize.toNat}
    (hpayload : mem.read p.payload p.payloadSize.toNat = some payload) :
    Writes (saveFields mem p) (packetBytes p payload.toList) := by
  have hkernel := Writes.onlyIf hp.kernel saveBuffer_writes_of_eq
  have hudp := Writes.onlyIf hp.udp saveBuffer_writes_of_eq
  have htcp : Writes (onlyIf (p.transport = TCP_CONNECTION) do
      saveBuffer p.tcp
      saveOptionsAt p.tcpOptions) (p.tcp.elim [] List.Vector.toList ++ p.tcpOptions.elim [] optionsBytes) := by
    unfold onlyIf
    by_cases ht : p.transport = TCP_CONNECTION
    · obtain ⟨tcp, htcp⟩ := Option.isSome_iff_exists.mp (hp.tcp.mpr ht)
      obtain ⟨options, hoptions⟩ := Option.isSome_iff_exists.mp (hp.tcpOptions.mpr ht)
      rw [if_pos ht, htcp, hoptions]
      exact (saveBuffer_writes tcp).bind (saveOptions_writes options)
    · have htcp : p.tcp = none := by simpa using mt hp.tcp.mp ht
      have hoptions : p.tcpOptions = none := by simpa using mt hp.tcpOptions.mp ht
      rw [if_neg ht, htcp, hoptions]
      exact writes_pure
  have hlast := (saveBuffer_writes_of_eq payload hpayload).bind <| (saveBuffer_writes p.elab_key).bind <|
    (saveChar_writes (if p.bufferFull then 1 else 0)).bind (saveChar_writes p.packetType)
  have hmid := htcp.bind <| hudp.bind <| (saveInt_writes p.payloadSize).bind hlast
  rw [List.append_assoc] at hmid
  exact (saveChar_writes _).bind <| (saveInt_writes _).bind <| (saveInt_writes _).bind <|
    (saveInt_writes _).bind <| hkernel.bind <| (saveBuffer_writes p.ip).bind <|
    (saveOptions_writes p.ipOptions).bind hmid

theorem ByteVector.load_undoes (v : ByteVector) {bytes : List Byte} (h : bytes.length = v.data.length) :
    Undoes v.load bytes { v with data := bytes, fits := h ▸ v.fits } :=
  (loadBuffer_undoes ⟨bytes, h⟩).bind_pure _

theorem ByteVector.length_resize (A : Allocator) (v : ByteVector) (size : Nat) :
    (v.resize A size).data.length = size := by
  unfold ByteVector.resize
  split_ifs <;> exact length_resized _ _

theorem ByteVector.le_capacity_resize (A : Allocator) (v : ByteVector) (size : Nat) :
    size ≤ (v.resize A size).capacity := by
  have h := (v.resize A size).fits
  rwa [v.length_resize] at h

def ByteVector.loaded (A : Allocator) (v : ByteVector) (payload : List Byte) : ByteVector :=
  { v.resize A payload.length with
    data := payload
    fits := v.le_capacity_resize A payload.length }

theorem loadPacket_undoes (A : Allocator) (hp : p.WellFormed mem) (value : PacketInfo n) (v : ByteVector)
    {payload : List Byte} (hpayload : payload.length = p.payloadSize.toNat) :
    Undoes (loadPacket A value v 1) (packetBytes p payload)
      ({ p with payload := v.begin }, v.loaded A payload) := by
  have hload : Undoes (v.resize A p.payloadSize.toNat).load payload (v.loaded A payload) := by
    rw [← hpayload]
    exact ByteVector.load_undoes _ (v.length_resize A _).symm
  have hkey : Undoes (loadKey 1 value.elab_key) p.elab_key.toList p.elab_key := loadBuffer_undoes _
  have hfull : decide ((if p.bufferFull then 1 else 0 : Byte) = 1) = p.bufferFull := by
    cases p.bufferFull <;> decide
  have hend : Undoes loadChar [p.packetType] p.packetType := loadChar_undoes _
  refine (loadChar_undoes p.transport).bind <| (loadInt_undoes p.tv_sec).bind <|
    (loadInt_undoes p.tv_usec).bind <| (loadInt_undoes p.packetLength).bind <|
    (Undoes.optional hp.kernel loadBuffer_undoes).bind <| (loadBuffer_undoes p.ip).bind <|
    (loadOptions_undoes p.ipOptions).bind <| (Undoes.optional hp.tcp loadBuffer_undoes).bind <|
    (Undoes.optional hp.tcpOptions loadOptions_undoes).bind <|
    (Undoes.optional hp.udp loadBuffer_undoes).bind <| (loadInt_undoes p.payloadSize).bind <|
    hload.bind <| hkey.bind <| (loadChar_undoes _).bind ?_
  rw [hfull]
  exact hend.bind_pure _

theorem Memory.read_of_le {ptr : Pointer} {size : Nat} (h : size ≤ (mem.at ptr).length) :
    mem.read ptr size = some ⟨(mem.at ptr).take size, List.length_take_of_le h⟩ := dif_pos h

theorem Memory.read_of_lt {ptr : Pointer} {size : Nat} (h : (mem.at ptr).length < size) :
    mem.read ptr size = none := dif_neg (by omega)

/-- The old pointer leads to the payload unless the vector has moved. -/
theorem read_loaded_iff (A : Allocator) (v : ByteVector) (payload : List Byte) :
    ((v.loaded A payload).memory.read v.begin payload.length).map List.Vector.toList = some payload ↔
      payload.length ≤ v.capacity := by
  by_cases hle : payload.length ≤ v.capacity
  · have hbegin : (v.loaded A payload).begin = v.begin := by
      simp only [ByteVector.loaded, ByteVector.resize, dif_pos hle]
    have hat : (v.loaded A payload).memory.at v.begin = payload := by
      cases hv : v.begin with
      | none =>
        -- without a block there is no room, so that the payload is empty
        have := v.room hv
        exact (List.length_eq_zero_iff.mp (by omega)).symm
      | some a => exact if_pos (hbegin.trans hv)
    refine iff_of_true ?_ hle
    rw [Memory.read_of_le (by rw [hat])]
    show some (((v.loaded A payload).memory.at v.begin).take payload.length) = some payload
    rw [hat, List.take_length]
  · refine iff_of_false ?_ hle
    have hbegin : (v.loaded A payload).begin = some (A.address v.begin payload.length) := by
      simp only [ByteVector.loaded, ByteVector.resize, dif_neg hle]
    have hat : (v.loaded A payload).memory.at v.begin = [] := by
      cases hv : v.begin with
      | none => rfl
      | some a =>
        refine if_neg ?_
        rw [hbegin, ← hv]
        exact A.fresh v.begin _
    rw [Memory.read_of_lt (by rw [hat]; simp only [List.length_nil]; omega)]
    exact nofun

end Packets

/-! ## Section 6: Saving and loading again -/

section RoundTrip

variable {n : Nat}

/-- `loadHeader` undoes `saveHeader`, whatever comes next. -/
def HeaderRoundTrip (value : Header) : Prop :=
  ∃ bytes, (∀ count, ∃ count', (saveHeader value).run ⟨some [], count⟩ = some ((), ⟨some bytes, count'⟩)) ∧
    ∀ old rest, (loadHeader old).run (bytes ++ rest) = some (value, rest)

/-- The size that is recorded without a buffer is that of what is written with one. -/
def SizeRecorded (mem : Memory) (p : PacketInfo n) : Prop :=
  ∃ bytes count, savePacket (some []) mem p = some ⟨some bytes, count⟩ ∧
    savePacket none mem p = some ⟨none, BitVec.ofNat 32 bytes.length⟩

/-- `loadPacket` undoes `savePacket`, whatever comes next. The payload is read through the pointer
    of the loaded packet. -/
def PacketRoundTrip (A : Allocator) (mem : Memory) (p value : PacketInfo n) (v : ByteVector) : Prop :=
  ∃ bytes count, savePacket (some []) mem p = some ⟨some bytes, count⟩ ∧
    ∀ rest, ∃ p' v', (loadPacket A value v 1).run (bytes ++ rest) = some ((p', v'), rest) ∧
      p' = { p with payload := p'.payload } ∧ p'.payloadBytes v'.memory = p.payloadBytes mem

variable {A : Allocator} {mem : Memory} {p value : PacketInfo n} {v : ByteVector}

theorem header_round_trip {value : Header} (h : value.version = 1) : HeaderRoundTrip value :=
  ⟨headerBytes value, fun count => ⟨_, saveHeader_writes h ⟨some [], count⟩⟩,
    fun old => loadHeader_undoes h old⟩

theorem savePacket_spec (hp : p.WellFormed mem) : ∃ payload : List Byte,
    payload.length = p.payloadSize.toNat ∧ p.payloadBytes mem = some payload ∧
    ∀ buffer, savePacket buffer mem p = some ((⟨buffer, 0⟩ : Out Byte 32).append (packetBytes p payload)) := by
  have hread := Memory.read_of_le hp.payload
  refine ⟨(mem.at p.payload).take p.payloadSize.toNat, List.length_take_of_le hp.payload, ?_,
    fun buffer => ?_⟩
  · rw [PacketInfo.payloadBytes, hread]
    rfl
  · rw [savePacket, saveFields_writes hp hread]
    rfl

theorem size_recorded (hp : p.WellFormed mem) : SizeRecorded mem p := by
  obtain ⟨payload, -, -, hsave⟩ := savePacket_spec hp
  refine ⟨packetBytes p payload, _, hsave (some []), ?_⟩
  rw [hsave none]
  simp [Out.append]

theorem packet_round_trip_iff (hp : p.WellFormed mem) :
    PacketRoundTrip A mem p value v ↔ p.payloadSize.toNat ≤ v.capacity := by
  obtain ⟨payload, hlength, hpayload, hsave⟩ := savePacket_spec hp
  have hload := loadPacket_undoes A hp value v hlength
  have hread := read_loaded_iff A v payload
  rw [hlength] at hread
  constructor
  · rintro ⟨bytes, count, hbytes, hall⟩
    obtain rfl : packetBytes p payload = bytes := by
      rw [hsave] at hbytes
      exact Option.some.inj (congrArg Out.buffer (Option.some.inj hbytes))
    obtain ⟨p', v', hrun, -, hsame⟩ := hall []
    rw [hload] at hrun
    obtain ⟨rfl, rfl⟩ := Prod.mk.inj (Prod.mk.inj (Option.some.inj hrun)).1
    exact hread.mp (hsame.trans hpayload)
  · intro hle
    exact ⟨packetBytes p payload, _, hsave (some []), fun rest =>
      ⟨_, _, hload rest, rfl, (hread.mpr hle).trans hpayload.symm⟩⟩

/-- **Main result.** Headers and packets are loaded as they were saved, with the exact size, if the
    vector for the payload need not grow. -/
theorem load_undoes_save_iff (A : Allocator) (header : Header) (hversion : header.version = 1)
    (mem : Memory) (p : PacketInfo n) (hp : p.WellFormed mem) (value : PacketInfo n) (v : ByteVector) :
    HeaderRoundTrip header ∧ SizeRecorded mem p ∧ PacketRoundTrip A mem p value v ↔
      p.payloadSize.toNat ≤ v.capacity := by
  rw [packet_round_trip_iff hp]
  exact ⟨fun h => h.2.2, fun h => ⟨header_round_trip hversion, size_recorded hp, h⟩⟩

def zeroHeader : Header := ⟨0, 0, 1, List.Vector.replicate idSize 0⟩

def oneByte : Memory := fun _ => [7]

/-- A UDP packet with so many bytes of payload. -/
def datagram (payloadSize : BitVec 32) : PacketInfo 104 where
  transport := UDP_CONNECTION
  tv_sec := 0
  tv_usec := 0
  packetLength := 0
  kernel := none
  ip := List.Vector.replicate 20 0
  ipOptions := ⟨[], by decide⟩
  tcp := none
  tcpOptions := none
  udp := some (List.Vector.replicate 8 0)
  payloadSize := payloadSize
  payload := some 0
  elab_key := List.Vector.replicate idSize 0
  bufferFull := false
  packetType := 255

theorem datagram_wellFormed {payloadSize : BitVec 32} (h : payloadSize.toNat ≤ 1) :
    (datagram payloadSize).WellFormed oneByte where
  transport := Or.inr rfl
  kernel := show false = true ↔ UDP_CONNECTION = TCP_CONNECTION by decide
  tcp := show false = true ↔ UDP_CONNECTION = TCP_CONNECTION by decide
  tcpOptions := show false = true ↔ UDP_CONNECTION = TCP_CONNECTION by decide
  udp := show true = true ↔ UDP_CONNECTION = UDP_CONNECTION by decide
  payload := h

/-- The vector that the replay starts with. -/
def emptyVector : ByteVector := ⟨none, [], 0, le_rfl, fun _ => rfl⟩

/-- Blocks one after the other. -/
def nextBlock : Allocator where
  address old _ := old.elim 1 (· + 1)
  capacity size := size
  fresh old _ := by cases old <;> simp
  enough _ := le_rfl

theorem load_undoes_save_datagram : HeaderRoundTrip zeroHeader ∧ SizeRecorded oneByte (datagram 0) ∧
    PacketRoundTrip nextBlock oneByte (datagram 0) (datagram 0) emptyVector :=
  (load_undoes_save_iff nextBlock zeroHeader rfl oneByte (datagram 0) (datagram_wellFormed (by decide))
    (datagram 0) emptyVector).mpr (by decide)

/-- The first payload of a replay is not at the pointer of its packet. -/
theorem first_payload_lost : (datagram 1).WellFormed oneByte ∧
    ¬ PacketRoundTrip nextBlock oneByte (datagram 1) (datagram 1) emptyVector :=
  ⟨datagram_wellFormed (by decide), fun h =>
    absurd ((packet_round_trip_iff (datagram_wellFormed (by decide))).mp h) (by decide)⟩

end RoundTrip

end Emulab.Magent
