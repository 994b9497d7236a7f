import Emulab.Imagezip.Reloc

/-! # Chunks

  An image file is a sequence of chunks of one megabyte: a page with the
  header, and behind it the data of all regions in the header as one
  compressed stream. Chunks are compressed independently of each other.

  The compressor is `zlib`, which comes from elsewhere. It is a parameter, and
  what the chunk routines rely on is collected in `Zlib.Lawful`.
-/

namespace Emulab.Imagezip

open MachineInt

/-! ## Section 1: The compressor -/

/-- The functions of `zlib` that are used here. -/
structure Zlib where
  /-- A stream that is being compressed. -/
  Stream : Type
  deflateInit : Stream
  /-- `deflate(Z_SYNC_FLUSH)`: from an input and the room for the output, the stream, the output, and how
      much of the input is left (`avail_in`); `none` if the result is not `Z_OK`. -/
  deflate : Stream → List Byte → Nat → Option (Stream × List Byte × Nat)
  /-- `deflate(Z_FINISH)` without more input: the rest of the output; `none` if
      the result is not `Z_STREAM_END`. -/
  finish : Stream → Nat → Option (List Byte)
  /-- What `inflate` makes of some data up to the end of the stream. -/
  inflate : List Byte → Option (List Byte)

/-- A stream after some calls of `deflate`: all its input and all its output. -/
inductive Zlib.Compressed (z : Zlib) : z.Stream → List Byte → List Byte → Prop where
  | init : Compressed z z.deflateInit [] []
  | append {stream stream' : z.Stream} {input output buf out : List Byte} {avail : Nat}
      (h : Compressed z stream input output)
      (hdeflate : z.deflate stream buf avail = some (stream', out, 0))
      (hroom : out.length < avail) : Compressed z stream' (input ++ buf) (output ++ out)

abbrev CHUNKSIZE : Nat := 1024 * 1024

abbrev CHUNKSLOP : Nat := 1000

abbrev CHUNKTHRESH : Nat := 8192

/-- More than a block of data that fits a chunk can grow, and more than it takes to end a stream.
    Incompressible data are stored, which costs five bytes for each 16K. -/
abbrev EXPANSION : Nat := 500

/-- What `zlib` guarantees. -/
structure Zlib.Lawful (z : Zlib) : Prop where
  deflate : ∀ {stream input output}, z.Compressed stream input output → ∀ (buf : List Byte) avail,
    buf.length + CHUNKSLOP ≤ avail → avail ≤ CHUNKSIZE →
    ∃ stream' out, z.deflate stream buf avail = some (stream', out, 0) ∧ out.length ≤ buf.length + EXPANSION
  finish : ∀ {stream input output}, z.Compressed stream input output → ∀ avail, EXPANSION ≤ avail →
    ∃ out, z.finish stream avail = some out ∧ out.length < EXPANSION ∧
      ∀ rest, z.inflate (output ++ out ++ rest) = some input

/-! ## Section 2: Chunks that are being written -/

variable {z : Zlib}

/-- Room for the data in a chunk. -/
abbrev CBUFSIZE : Nat := CHUNKSIZE - DEFAULTREGIONSIZE

theorem chunk_constants : CHUNKSIZE = 1048576 ∧ CBUFSIZE = 1044480 ∧ CHUNKSLOP = 1000 ∧
    CHUNKTHRESH = 8192 ∧ EXPANSION = 500 ∧ SECSIZE = 512 ∧ DEFAULTREGIONSIZE = 4096 := by
  decide

/-- A chunk that is being written. The high-water mark of the buffer is the length of the data in it. -/
structure NdzChunk (z : Zlib) where
  chunkno : Nat
  stream : z.Stream
  cbufdata : List Byte
  cbufleft : Nat

structure ChunkImage where
  hdr : Blockhdr
  data : List Byte

def ndzChunkCreate (z : Zlib) (chunkno : Nat) : NdzChunk z :=
  { chunkno := chunkno, stream := z.deflateInit, cbufdata := [], cbufleft := CBUFSIZE }

/-- The amount of uncompressed data that the chunk will accept. -/
def ndzChunkLeft (chunk : NdzChunk z) : Nat := chunk.cbufleft - CHUNKSLOP

/-- Compress and append data. Returns how much has been appended: all or nothing. -/
def ndzChunkAppend (chunk : NdzChunk z) (buf : List Byte) : Except Failure (Nat × NdzChunk z) :=
  if buf.length % SECSIZE ≠ 0 then
    .error .error
  else if buf.length = 0 ∨ buf.length > subU64 chunk.cbufleft CHUNKSLOP then
    .ok (0, chunk)
  else
    match z.deflate chunk.stream buf chunk.cbufleft with
    | none => .error .error
    | some (stream, out, availIn) => do
      let availOut := chunk.cbufleft - out.length
      if availOut = 0 then
        throw .error
      assert (availIn = 0)
      return (buf.length - availIn, { chunk with
          stream := stream
          cbufdata := chunk.cbufdata ++ out
          cbufleft := if availOut < CHUNKTHRESH then 0 else availOut })

/-- Finish a chunk and write it to the file, with its header. -/
def ndzChunkFlush (chunk : NdzChunk z) (hdr : Blockhdr) : Except Failure ChunkImage := do
  -- `ndz_chunk_append` might have zeroed it
  let cbufleft := CBUFSIZE - chunk.cbufdata.length
  assert (0 < cbufleft)
  match z.finish chunk.stream cbufleft with
  | none => throw .error
  | some out =>
    let availOut := cbufleft - out.length
    if availOut = 0 then
      throw .error
    let cbufdata := chunk.cbufdata ++ out
    return {
      hdr := if hdr.magic > COMPRESSED_V1 then { hdr with size := cbufdata.length } else hdr
      data := cbufdata ++ List.replicate availOut 0 }

/-! ## Section 3: What a chunk holds -/

structure NdzChunk.Holds (chunk : NdzChunk z) (input : List Byte) : Prop where
  stream : z.Compressed chunk.stream input chunk.cbufdata
  /-- There is room for the end of the stream. -/
  room : chunk.cbufdata.length + EXPANSION ≤ CBUFSIZE
  left : chunk.cbufleft = if CBUFSIZE - chunk.cbufdata.length < CHUNKTHRESH then 0
    else CBUFSIZE - chunk.cbufdata.length
  /-- Even of the smallest blocks the chunk takes as much as half of its size. -/
  grown : chunk.cbufdata.length ≤ 2 * input.length

theorem holds_create (z : Zlib) (chunkno : Nat) : (ndzChunkCreate z chunkno).Holds [] where
  stream := .init
  room := by
    show 0 + EXPANSION ≤ CBUFSIZE
    decide
  left := by
    show CBUFSIZE = if CBUFSIZE - 0 < CHUNKTHRESH then 0 else CBUFSIZE - 0
    have hc := chunk_constants
    split
    · omega
    · omega
  grown := le_rfl

theorem left_create (z : Zlib) (chunkno : Nat) :
    ndzChunkLeft (ndzChunkCreate z chunkno) = CBUFSIZE - CHUNKSLOP := rfl

theorem ndzChunkAppend_spec (hz : z.Lawful) {chunk : NdzChunk z} {input : List Byte}
    (h : chunk.Holds input) {buf : List Byte} (hsect : buf.length % SECSIZE = 0)
    (hpos : 0 < buf.length) (hfit : buf.length ≤ ndzChunkLeft chunk) :
    ∃ chunk', ndzChunkAppend chunk buf = .ok (buf.length, chunk') ∧
      chunk'.Holds (input ++ buf) ∧ chunk'.chunkno = chunk.chunkno := by
  have hc := chunk_constants
  unfold ndzChunkLeft at hfit
  have hleft : chunk.cbufleft = CBUFSIZE - chunk.cbufdata.length := by
    have := h.left
    split at this
    · omega
    · exact this
  have hsub : subU64 chunk.cbufleft CHUNKSLOP = chunk.cbufleft - CHUNKSLOP := by
    apply subU64_of_le
    · omega
    · omega
  obtain ⟨stream', out, hdeflate, hlen⟩ := hz.deflate h.stream buf chunk.cbufleft (by omega) (by omega)
  have hsmall : 512 ≤ buf.length := Nat.le_of_dvd hpos (Nat.dvd_of_mod_eq_zero hsect)
  refine ⟨{ chunk with
    stream := stream'
    cbufdata := chunk.cbufdata ++ out
    cbufleft := if chunk.cbufleft - out.length < CHUNKTHRESH then 0
      else chunk.cbufleft - out.length }, ?_, ?_, rfl⟩
  · unfold ndzChunkAppend
    rw [if_neg (by omega), if_neg (by omega), hdeflate]
    show (do
      if chunk.cbufleft - out.length = 0 then throw .error
      assert (decide (0 = 0))
      return _ : Except Failure (Nat × NdzChunk z)) = _
    rw [if_neg (by omega)]
    rfl
  · have hsum : (chunk.cbufdata ++ out).length = chunk.cbufdata.length + out.length :=
      List.length_append
    constructor
    · exact h.stream.append hdeflate (by omega)
    · show (chunk.cbufdata ++ out).length + EXPANSION ≤ CBUFSIZE
      omega
    · show (if chunk.cbufleft - out.length < CHUNKTHRESH then 0
        else chunk.cbufleft - out.length) = _
      rw [hsum, hleft, Nat.sub_sub]
    · show (chunk.cbufdata ++ out).length ≤ _
      have := h.grown
      rw [hsum, List.length_append]
      omega

theorem ndzChunkFlush_spec (hz : z.Lawful) {chunk : NdzChunk z} {input : List Byte}
    (h : chunk.Holds input) {hdr : Blockhdr} (hmagic : hdr.magic > COMPRESSED_V1) :
    ∃ image size, ndzChunkFlush chunk hdr = .ok image ∧ image.hdr = { hdr with size := size } ∧
      image.data.length = CBUFSIZE ∧ z.inflate image.data = some input := by
  have hc := chunk_constants
  have hroom := h.room
  obtain ⟨out, hfinish, hlen, hinflate⟩ := hz.finish h.stream (CBUFSIZE - chunk.cbufdata.length) (by omega)
  refine ⟨⟨{ hdr with size := (chunk.cbufdata ++ out).length }, chunk.cbufdata ++ out ++
    List.replicate (CBUFSIZE - chunk.cbufdata.length - out.length) 0⟩,
    (chunk.cbufdata ++ out).length, ?_, rfl, ?_, hinflate _⟩
  · unfold ndzChunkFlush
    have hpos : decide (0 < CBUFSIZE - chunk.cbufdata.length) = true := decide_eq_true (by omega)
    simp only [hpos, assert_true, hfinish, bind, Except.bind]
    rw [if_neg (by omega), if_pos hmagic]
    rfl
  · simp only [List.length_append, List.length_replicate]
    omega

theorem NdzChunk.Holds.full {chunk : NdzChunk z} {input : List Byte} (h : chunk.Holds input)
    (hfull : ndzChunkLeft chunk < SECSIZE) : 1000 * SECSIZE ≤ input.length := by
  have hc := chunk_constants
  have hgrown := h.grown
  have hroom := h.room
  have hleft := h.left
  unfold ndzChunkLeft at hfull
  split at hleft
  · omega
  · omega

end Emulab.Imagezip
