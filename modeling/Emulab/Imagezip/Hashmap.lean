import Emulab.Imagezip.Fixups

/-! # Delta images from a hash signature

  `hashmap_compute_delta` intersects the allocated ranges of a disk with the
  regions of a signature file, and leaves out what a signature region
  covers, if the region still has the contents that its hash was made of.
-/

namespace Emulab.Imagezip

open MachineInt

/-! ## Section 1: Signatures -/

/-- Bytes in a hash block, unless the signature says otherwise. -/
abbrev HASHBLK_SIZE : Nat := 64 * 1024

/-- The older signature format, without an explicit block size. -/
abbrev HASH_VERSION_1 : Nat := 0x20031107

/-- The signature format with an explicit block size. -/
abbrev HASH_VERSION_2 : Nat := 0x20140618

abbrev HASH_TYPE_MD5 : Nat := 1

abbrev HASH_TYPE_SHA1 : Nat := 2

/-- What a signature file begins with. -/
def HASH_MAGIC : String := ".ndzsig"

/-- A region of the disk with the hash of its contents. -/
structure HashRegion where
  region : Range
  /-- The chunk of the image that the region is in. -/
  chunkno : Nat
  hash : List Byte
deriving DecidableEq

structure HashInfo where
  magic : String
  version : Nat
  hashtype : Nat
  blksize : Nat
  regions : List HashRegion

/-- The disk that is imaged, the library's hash functions, and the option to
    hash regions that are allocated only in part. -/
structure DeltaInput where
  disk : Nat → Byte
  diskSize : Nat
  md5 : List Byte → List Byte
  sha1 : List Byte → List Byte
  /-- Compare regions that are not completely allocated. -/
  hashFree : Bool
  /-- The first sector of the partition. -/
  poffset : Nat
  /-- Whether a new signature is to be made. -/
  newhashfile : Bool

/-- The input together with what the signature determines: the size of a hash
    block, and the hash function with its length. -/
structure DeltaEnv extends DeltaInput where
  hashblksize : Nat
  hashlen : Nat
  hashfunc : List Byte → List Byte

/-- The global variables that change while hashes are computed. -/
structure HashState where
  fixups : List Fixup
  relocs : List Reloc
  /-- The regions of the new signature; `none` before the first. -/
  nhinfo : Option (List HashRegion)

/-! ## Section 2: Hashing -/

/-- Read a range of the disk and compute the hash value, with the fixups of the range applied. -/
def hashRange (env : DeltaEnv) (st : HashState) (start size : Nat) :
    Except Failure (List Byte × HashState) := do
  assert (size ≤ env.hashblksize)
  -- reading past the end of the disk is an unexpected end of file
  if 0 < size ∧ env.diskSize < sectobytes start + sectobytes size then
    .error .error
  else
    let hashdata := readBytes env.disk (sectobytes start) (sectobytes size)
    if hasfixup st.fixups start size then
      let (hashdata, fixups, relocs) ←
        applyfixups (sectobytes start) (sectobytes size) st.fixups hashdata
      .ok (env.hashfunc hashdata, { st with fixups := fixups, relocs := st.relocs ++ relocs })
    else
      .ok (env.hashfunc hashdata, st)

/-- Hash a region of the signature and compare with its hash: whether the
    contents have changed, and the new hash. -/
def hashAndCmp (env : DeltaEnv) (st : HashState) (hashreg : HashRegion) :
    Except Failure (Bool × List Byte × HashState) := do
  let (hash, st) ← hashRange env st hashreg.region.start hashreg.region.size
  .ok (hashreg.hash.take env.hashlen ≠ hash.take env.hashlen, hash, st)

/-- Append a region to the new signature. -/
def addhash (st : HashState) (start size : Nat) (hash : List Byte) : HashState :=
  { st with nhinfo := some (st.nhinfo.getD [] ++
      [{ region := ⟨start, size⟩, chunkno := 0, hash := hash }]) }

/-- The loop of `add_to_hashmap`: the range is cut at the hash boundaries. -/
def addToHashmapLoop (env : DeltaEnv) (offset rstart rsize : Nat) (rhash : Option (List Byte))
    (st : HashState) : Except Failure HashState :=
  if rsize = 0 then
    .ok st
  else
    let hsize :=
      if offset ≠ 0 then min (env.hashblksize - offset) rsize
      else if env.hashblksize < rsize then env.hashblksize
      else rsize
    if _hpos : hsize = 0 then
      .error .assertion
    else do
      let (hash, st) ←
        match rhash with
        | some hash => .ok (hash, st)
        | none => hashRange env st rstart hsize
      addToHashmapLoop env 0 (addU32 rstart hsize) (rsize - hsize) rhash
        (addhash st rstart hsize hash)
termination_by rsize
decreasing_by
  omega

/-- Create hash map entries for a range of data. The boundaries of the hash
    blocks are relative to the partition. -/
def addToHashmap (env : DeltaEnv) (st : HashState) (rstart rsize : Nat)
    (rhash : Option (List Byte)) : Except Failure HashState :=
  -- a block size of zero is a division by zero
  if env.hashblksize = 0 then .error .assertion
  else addToHashmapLoop env (subU32 rstart env.poffset % env.hashblksize) rstart rsize rhash st

/-- Add hash entries for a range, if there is to be a new signature. -/
def hashNew (env : DeltaEnv) (st : HashState) (start size : Nat) (hash : Option (List Byte)) :
    Except Failure HashState :=
  if env.newhashfile then addToHashmap env st start size hash else .ok st

/-! ## Section 3: The merge of ranges and regions -/

/-- The new range list, the last range first; at its end is the dummy head,
    which nothing is coalesced with. -/
abbrev RangeTail := List Range

/-- The dummy head of the new range list. -/
def dummyHead : Range := ⟨2 ^ 32 - 1, 0⟩

/-- Add to the tail, coalescing the ranges if they can be. -/
def addToRange (out : RangeTail) (start size : Nat) : RangeTail :=
  match out with
  | [] => [⟨start, size⟩]
  | tail :: rest =>
    if rangeEnd tail = start then { tail with size := addU32 tail.size size } :: rest
    else ⟨start, size⟩ :: tail :: rest

/-- What the scan of the allocated ranges has arrived at. -/
structure DeltaState where
  /-- The allocated ranges that are left; the first may have been split. -/
  dranges : List Range
  out : RangeTail
  st : HashState

/-- Put a range into the new list, and hash it for a new signature. -/
def keepRange (env : DeltaEnv) (out : RangeTail) (st : HashState) (start size : Nat) :
    Except Failure (RangeTail × HashState) := do
  let st ← hashNew env st start size none
  .ok (addToRange out start size, st)

/-- Ranges that end before the region at `hstart` are newly allocated. -/
def keepBefore (env : DeltaEnv) (hstart : Nat) :
    List Range → RangeTail → HashState → Except Failure DeltaState
  | [], out, st => .ok ⟨[], out, st⟩
  | drange :: next, out, st =>
    if rangeEnd drange ≤ hstart then do
      let (out, st) ← keepRange env out st drange.start drange.size
      assert (next.all fun drange => 0 < drange.size)
      keepBefore env hstart next out st
    else
      .ok ⟨drange :: next, out, st⟩

/-- The result of comparing a region with the disk. -/
inductive Changed where
  | same
  | differs
  /-- The region is not completely allocated, and has not been compared. -/
  | gap
  | fixup
deriving DecidableEq

/-- Decide whether what is allocated of a region must be in the image. -/
def compareRegion (env : DeltaEnv) (drange : Range) (hreg : HashRegion) (st : HashState) :
    Except Failure (Changed × HashState) := do
  if env.hashFree ∨ drange.start = hreg.region.start ∧ hreg.region.size ≤ drange.size then
    if hasfixup st.fixups hreg.region.start hreg.region.size then
      .ok (.fixup, st)
    else
      let (differs, hash, st) ← hashAndCmp env st hreg
      let st ← hashNew env st hreg.region.start hreg.region.size (some hash)
      .ok (if differs then .differs else .same, st)
  else
    .ok (.gap, st)

/-- A part of a range that a region covers. If the contents have been compared,
    the hash of the region has been added to the new signature already. -/
def keepPart (env : DeltaEnv) (changed : Changed) (out : RangeTail) (st : HashState)
    (start size : Nat) : Except Failure (RangeTail × HashState) :=
  match changed with
  | .same => .ok (out, st)
  | .differs => .ok (addToRange out start size, st)
  | .gap | .fixup => keepRange env out st start size

/-- The ranges, or parts of ranges, that a region covers. -/
def keepCovered (env : DeltaEnv) (changed : Changed) (hstart hend : Nat) (ds : List Range)
    (out : RangeTail) (st : HashState) : Except Failure DeltaState :=
  match ds with
  | [] => .ok ⟨[], out, st⟩
  | drange :: next =>
    if drange.start < hend then
      let curstart := drange.start
      -- a final range may cross the end of the region: split it
      let cross : Bool := hend < rangeEnd drange
      let curend := if cross then hend else rangeEnd drange
      do
        assert (hstart ≤ curstart)
        assert (curend ≤ hend)
        let (out, st) ← keepPart env changed out st curstart (subU32 curend curstart)
        if cross then
          keepCovered env changed hstart hend
            (⟨hend, subU32 (rangeEnd drange) hend⟩ :: next) out st
        else do
          assert (next.all fun drange => 0 < drange.size)
          keepCovered env changed hstart hend next out st
    else
      .ok ⟨drange :: next, out, st⟩
termination_by (ds.length, hend - (ds.head?.map (·.start)).getD 0)
decreasing_by
  · simp_all
    omega
  · apply Prod.Lex.left
    simp

/-- Any part of a range that falls before a region is new data. -/
def keepHead (env : DeltaEnv) (hstart : Nat) (drange : Range) (out : RangeTail)
    (st : HashState) : Except Failure (Range × RangeTail × HashState) :=
  if drange.start < hstart then do
    let before := subU32 hstart drange.start
    let (out, st) ← keepRange env out st drange.start before
    .ok (⟨addU32 drange.start before, subU32 drange.size before⟩, out, st)
  else
    .ok (drange, out, st)

def deltaRegion (env : DeltaEnv) (hreg : HashRegion) (s : DeltaState) :
    Except Failure DeltaState := do
  let hstart := hreg.region.start
  let hend := rangeEnd hreg.region
  let s ← keepBefore env hstart s.dranges s.out s.st
  match s.dranges with
  | [] => .ok s
  | drange :: next =>
    assert (hstart < rangeEnd drange)
    if hend ≤ drange.start then
      -- the sectors of the region have been deallocated
      .ok s
    else
      assert (drange.start < hend)
      let (drange, out, st) ← keepHead env hstart drange s.out s.st
      let (changed, st) ← compareRegion env drange hreg st
      assert (drange.start < hend)
      let s ← keepCovered env changed hstart hend (drange :: next) out st
      assert (s.dranges.head?.all fun drange => hend ≤ drange.start)
      .ok s

/-- The loop over the regions; also the regions left when the ranges run out. -/
def deltaLoop (env : DeltaEnv) :
    List HashRegion → DeltaState → Except Failure (DeltaState × List HashRegion)
  | [], s => .ok (s, [])
  | hreg :: hregs, s => do
    assert (s.dranges.head?.any fun drange => 0 < drange.size)
    let s ← deltaRegion env hreg s
    if s.dranges.isEmpty then .ok (s, hreg :: hregs) else deltaLoop env hregs s

/-- The ranges behind the last region. -/
def keepRest (env : DeltaEnv) (hregs : List HashRegion) :
    List Range → RangeTail → HashState → Except Failure (RangeTail × HashState)
  | [], out, st => .ok (out, st)
  | drange :: next, out, st => do
    assert hregs.isEmpty
    let (out, st) ← keepRange env out st drange.start drange.size
    assert (next.all fun drange => 0 < drange.size)
    keepRest env hregs next out st

/-! ## Section 4: The whole computation -/

/-- Read the signature file, and compensate for the partition offset. -/
def readhashinfo (poffset : Nat) (hi : HashInfo) : Except Failure HashInfo := do
  if hi.magic ≠ HASH_MAGIC ∨ ¬(hi.version = HASH_VERSION_1 ∨ hi.version = HASH_VERSION_2) then
    .error .error
  else
    let hashblksize := if hi.version = HASH_VERSION_1 then bytestosec HASHBLK_SIZE else hi.blksize
    assert (hi.regions.all fun hreg => hreg.region.size ≤ hashblksize)
    .ok { hi with regions := hi.regions.map fun hreg =>
      { hreg with region := { hreg.region with start := addU32 hreg.region.start poffset } } }

/-- The signature that is used if there is no signature file. -/
def emptyHashInfo : HashInfo :=
  { magic := HASH_MAGIC, version := HASH_VERSION_2, hashtype := HASH_TYPE_SHA1,
    blksize := bytestosec HASHBLK_SIZE, regions := [] }

def signature (poffset : Nat) (hfile : Option HashInfo) : Except Failure HashInfo :=
  match hfile with
  | some hi => readhashinfo poffset hi
  | none => .ok emptyHashInfo

/-- The environment that a signature determines. -/
def deltaEnv (input : DeltaInput) (hinfo : HashInfo) : DeltaEnv :=
  { input with
    hashblksize :=
      if hinfo.version = HASH_VERSION_1 then bytestosec HASHBLK_SIZE else hinfo.blksize
    hashlen := if hinfo.hashtype = HASH_TYPE_SHA1 then 20 else 16
    hashfunc := if hinfo.hashtype = HASH_TYPE_SHA1 then input.sha1 else input.md5 }

/-- Intersect the allocated ranges with the regions of a signature. The new
    range list, and the new signature. -/
def hashmapComputeDelta (input : DeltaInput) (curranges : List Range) (hfile : Option HashInfo)
    (fixups : List Fixup) : Except Failure (List Range × Option HashInfo) := do
  assert (!curranges.isEmpty)
  let hinfo ← signature input.poffset hfile
  let env := deltaEnv input hinfo
  let fixups := if input.newhashfile then savefixups fixups else fixups
  let (s, hregs) ←
    deltaLoop env hinfo.regions ⟨curranges, [dummyHead], ⟨fixups, [], none⟩⟩
  let (out, st) ← keepRest env hregs s.dranges s.out s.st
  if input.newhashfile then
    -- every copy of a fixup must have been applied
    assert st.fixups.isEmpty
    .ok (out.reverse.tail, some
      { magic := HASH_MAGIC
        version := HASH_VERSION_2
        hashtype := hinfo.hashtype
        blksize := if hinfo.version = HASH_VERSION_1 then HASHBLK_SIZE else hinfo.blksize
        regions := st.nhinfo.getD [] })
  else
    .ok (out.reverse.tail, none)

end Emulab.Imagezip
