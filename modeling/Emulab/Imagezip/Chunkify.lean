import Emulab.Imagezip.Chunk
import Emulab.Imagezip.ReadData

/-! # Making a delta image

  `imagedelta` walks over the delta map. It reads the data of each range from
  the second image, a hash block at a time, and appends them to chunks. Where
  a chunk is full the block is split.
-/

namespace Emulab.Imagezip

open MachineInt IntervalMap Extent

/-! ## Section 1: The state -/

/-- `sizeof(blockhdr_t)`. -/
abbrev SIZEOF_BLOCKHDR : Nat := 344

/-- `sizeof(struct blockhdr_V2)`, the header that is really in front of the regions. -/
abbrev SIZEOF_BLOCKHDR_V2 : Nat := 36

/-- `sizeof(struct region)`. -/
abbrev SIZEOF_REGION : Nat := 8

/-- `sizeof(struct blockreloc)`. -/
abbrev SIZEOF_BLOCKRELOC : Nat := 16

/-- The flag of a hash that spans chunks, and the chunk number without it. -/
def HASH_CHUNKSETSPAN (c : Nat) : Nat := c ||| 2 ^ 31

def HASH_CHUNKDOESSPAN (c : Nat) : Bool := c.testBit 31

def HASH_CHUNKNO (c : Nat) : Nat := c % 2 ^ 31

/-- What does not change during the walk. -/
structure ChunkifyEnv where
  z : Zlib
  /-- The delta file, with the relocations of the second image. -/
  ndz : NdzFile
  maphi : Nat
  hashentries : Nat
  hashblksize : Nat
  hashlen : Nat
  hashData : List Byte → List Byte

/-- `struct chunkstate` with an open chunk. The region table is the list of the regions in
    front of the current one, and this one. -/
structure ChunkState (z : Zlib) where
  chunkobj : NdzChunk z
  chunkno : Nat
  firstsect : Nat
  headerleft : Nat
  regions : List Range
  curregion : Range

/-- All that `chunkify` works on. -/
structure Delta (z : Zlib) where
  /-- `none` if no chunk is open. -/
  cstate : Option (ChunkState z)
  file : List ChunkImage
  hashcurentry : Nat
  sigmap : NdzRangemap NdzHashdata
  /-- The second image, and its signature. -/
  ndz2 : ImageFile
  sigmap2 : NdzRangemap NdzHashdata

/-- A part of a hash block that is to be appended, with its data. -/
structure Piece (z : Zlib) where
  pstart : Nat
  psize : Nat
  data : List Byte
  spanschunk : Bool
  cstate : ChunkState z
  file : List ChunkImage

/-! ## Section 2: Chunks -/

variable (env : ChunkifyEnv)

/-- The relocations that remain from sector `sect` on. -/
def countRelocs (sect : Nat) : Except Failure Nat :=
  if env.ndz.relocentries > 0 then ndzRelocInrange env.ndz sect 0 else .ok 0

def newChunk (z : Zlib) (chunkno sect headerleft : Nat) : ChunkState z :=
  { chunkobj := ndzChunkCreate z chunkno
    chunkno := chunkno
    firstsect := sect
    headerleft := headerleft
    regions := []
    curregion := ⟨sect, 0⟩ }

/-- Create a chunk that begins with sector `sect`, and account for relocations: all that
    remain might be in this chunk. -/
def startChunk (chunkno sect : Nat) : Except Failure (ChunkState env.z) := do
  let headerleft := DEFAULTREGIONSIZE - SIZEOF_BLOCKHDR
  let nreloc ← countRelocs env sect
  return newChunk env.z chunkno sect (subU32 headerleft (nreloc * SIZEOF_BLOCKRELOC))

/-- Finalize the header, with its relocations, and write the chunk. -/
def finishChunk (c : ChunkState env.z) (lastsect : Nat) : Except Failure ChunkImage := do
  let hdr ← finishHeader env.ndz c.chunkno {
    firstsect := if c.chunkno = 0 then 0 else c.firstsect
    lastsect := lastsect
    regions := c.regions ++ [c.curregion] }
  ndzChunkFlush c.chunkobj hdr

/-- Switch to a new chunk if the one that is open is full, or its header is. -/
def makeRoom (hsize : Nat) (p : Piece env.z) : Except Failure (Piece env.z) :=
  if ndzChunkLeft p.cstate.chunkobj < SECSIZE ∨ p.cstate.headerleft < SIZEOF_REGION then do
    let image ← finishChunk env p.cstate p.pstart
    let c ← startChunk env (addU32 p.cstate.chunkno 1) p.pstart
    assert (p.psize ≤ ndzChunkLeft c.chunkobj / SECSIZE)
    return { p with
      cstate := c
      file := p.file ++ [image]
      spanschunk := p.spanschunk || p.psize < hsize }
  else
    .ok p

/-- Append to the current region or create a new one. -/
def appendRegion {z : Zlib} (c : ChunkState z) (pstart wsize : Nat) : ChunkState z :=
  if addU32 c.curregion.start c.curregion.size = pstart then
    { c with curregion := ⟨c.curregion.start, addU32 c.curregion.size wsize⟩ }
  else
    { c with
      regions := c.regions ++ [c.curregion]
      curregion := ⟨pstart, wsize⟩
      headerleft := subU32 c.headerleft SIZEOF_REGION }

/-- Append as many sectors as the chunk accepts. -/
def appendSome {z : Zlib} (p : Piece z) : Except Failure (Piece z) := do
  let chunkremaining := ndzChunkLeft p.cstate.chunkobj
  let wsize := if p.psize * SECSIZE > chunkremaining then chunkremaining / SECSIZE else p.psize
  let wbytes := wsize * SECSIZE
  assert (0 < wsize)
  let (cc, chunkobj) ← ndzChunkAppend p.cstate.chunkobj (p.data.take wbytes)
  assert (cc = wbytes)
  return { p with
    pstart := addU32 p.pstart wsize
    psize := p.psize - wsize
    data := p.data.drop wbytes
    cstate := appendRegion { p.cstate with chunkobj := chunkobj } p.pstart wsize }

/-- Append all of a hash block of `hsize` sectors. -/
def appendLoop (hsize : Nat) (p : Piece env.z) : Except Failure (Piece env.z) :=
  if p.psize = 0 then
    .ok p
  else do
    let p₁ ← makeRoom env hsize p
    let p' ← appendSome p₁
    -- some of it has been appended
    if _h : p.psize ≤ p'.psize then .error .assertion else appendLoop hsize p'
termination_by p.psize
decreasing_by
  omega

/-! ## Section 3: Hash blocks -/

/-- The hash of a block from the signature of the second image, if it is there, or else from the data. -/
def fetchHash (sigmap2 : NdzRangemap NdzHashdata) (hstart hsize : Nat) (data : List Byte) :
    Except Failure (List Byte × NdzRangemap NdzHashdata) :=
  match ndzRangemapLookup sigmap2 hstart with
  | none => .error .assertion
  | some res =>
    let sigmap2 := { sigmap2 with hint := res.hint }
    match res.range.bind fun i => sigmap2.ranges[i]? with
    | none => .ok (env.hashData data, sigmap2)
    | some hrange =>
      match hrange.data with
      | none => .ok (env.hashData data, sigmap2)
      | some hd =>
        if hrange.start = hstart ∧ hrange.last = hstart + hsize - 1 then
          .ok (hd.hash.take env.hashlen, sigmap2)
        else
          .ok (env.hashData data, sigmap2)

/-- Hash a block of a range, append it to the chunks, and add it to the signature with the
    chunk that it begins in. -/
def chunkifyBlock (hstart hsize : Nat) (c : ChunkState env.z) (d : Delta env.z) :
    Except Failure (ChunkState env.z × Delta env.z) := do
  let (sc, data, ndz2) ← ndzReaddata d.ndz2 hsize hstart
  if sc ≠ hsize then
    .error .error
  else
    assert (d.hashcurentry < env.hashentries)
    let (hash, sigmap2) ← fetchHash env d.sigmap2 hstart hsize data
    let p ← appendLoop env hsize {
      pstart := hstart
      psize := hsize
      data := data
      spanschunk := false
      cstate := c
      file := d.file }
    let hdata : NdzHashdata := {
      chunkno :=
        if p.spanschunk then HASH_CHUNKSETSPAN (subU32 p.cstate.chunkno 1) else p.cstate.chunkno
      hashlen := env.hashlen
      hash := hash }
    let sigmap ← allocResult .error (ndzRangemapAlloc d.sigmap hstart hsize (some hdata) false)
    return (p.cstate, { d with
      file := p.file
      hashcurentry := d.hashcurentry + 1
      sigmap := sigmap
      ndz2 := ndz2
      sigmap2 := sigmap2 })

/-- The size of the first hash block of a range that begins `roffset` sectors behind a hash
    block boundary. -/
def blockSize (hashblksize roffset rsize : Nat) : Nat :=
  if roffset ≠ 0 then
    if hashblksize - roffset > rsize then rsize else hashblksize - roffset
  else if rsize > hashblksize then hashblksize
  else rsize

/-- Process a range in units of the hash block size. -/
def blockLoop (roffset rstart rsize : Nat) (c : ChunkState env.z) (d : Delta env.z) :
    Except Failure (ChunkState env.z × Delta env.z) :=
  if rsize = 0 then
    .ok (c, d)
  else
    let hsize := blockSize env.hashblksize roffset rsize
    -- a block size of zero is a division by zero
    if _hpos : hsize = 0 then
      .error .assertion
    else do
      let (c, d) ← chunkifyBlock env rstart hsize c d
      blockLoop 0 (rstart + hsize) (rsize - hsize) c d
termination_by rsize
decreasing_by
  omega

/-- Iterator for ranges in the delta map. -/
def chunkify (range : NdzRange NdzHashdata) (next : List (NdzRange NdzHashdata))
    (d : Delta env.z) : Except Failure (Delta env.z) := do
  let rstart := range.start
  let rsize := subU64 (addU64 range.last 1) rstart
  let c ← match d.cstate with
    | some c => .ok c
    | none => startChunk env 0 rstart
  let (c, d) ← blockLoop env (rstart % env.hashblksize) rstart rsize c d
  if next.isEmpty then
    -- the last range: flush the final chunk
    let image ← finishChunk env c (addU32 env.maphi 1)
    return { d with cstate := none, file := d.file ++ [image] }
  else
    return { d with cstate := some c }

/-- The delta image: the walk over a delta map, from an empty file and signature. -/
def makeDelta (dmap : NdzRangemap NdzHashdata) (ndz2 : ImageFile)
    (sigmap2 : NdzRangemap NdzHashdata) : Except Failure (Delta env.z) :=
  ndzRangemapIterate dmap (chunkify env) {
    cstate := none
    file := []
    hashcurentry := 0
    sigmap := ndzRangemapInit NDZ_LOADDR (NDZ_HIADDR - NDZ_LOADDR)
    ndz2 := ndz2
    sigmap2 := sigmap2 }

end Emulab.Imagezip
