import Emulab.Imagezip.RangeWalk

/-! # Reading the data of an image

  `ndz_readdata` decompresses the sectors it is asked for. It keeps the chunk
  that it has read from last, so that sectors which are asked for in ascending
  order are decompressed only once.
-/

namespace Emulab.Imagezip

open MachineInt IntervalMap Outcome List Option

/-! ## Section 1: Image files that are read -/

/-- The sectors that a chunk describes. -/
structure NdzBounds where
  losect : Nat
  hisect : Nat

structure ChunkReader where
  chunkno : Nat
  /-- What is still to be decompressed. -/
  left : List Byte

/-- What is used here of `struct ndz_file`. -/
structure ImageFile where
  /-- The ranges with their chunk numbers, counted from one. -/
  rangemap : NdzRangemap Nat
  chunkmap : List NdzBounds
  /-- What the data of a chunk are decompressed to. -/
  inflated : Nat → Option (List Byte)
  /-- The chunk that was read last; `none` is a `NULL` pointer. -/
  chunkobj : Option ChunkReader
  /-- The sector that comes next in it. -/
  chunksect : Nat

/-- Begin to read a chunk, or go back to where it begins. -/
def ndzChunkOpen (ndz : ImageFile) (chunkno : Nat) : ChunkReader :=
  { chunkno := chunkno, left := (ndz.inflated chunkno).getD [] }

/-- Decompress until there are `bytes` bytes or the chunk ends. -/
def ndzChunkRead (chunk : ChunkReader) (bytes : Nat) : List Byte × ChunkReader :=
  (chunk.left.take bytes, { chunk with left := chunk.left.drop bytes })

/-! ## Section 2: Reading -/

/-- Search the range map, which moves its hint. -/
def lookupRange (ndz : ImageFile) (addr : Nat) : Except Failure (Lookup × ImageFile) :=
  match ndzRangemapLookup ndz.rangemap addr with
  | none => .error .assertion
  | some res => .ok (res, { ndz with rangemap := { ndz.rangemap with hint := res.hint } })

/-- A range that must be there. -/
def needRange (ndz : ImageFile) (i : Nat) : Except Failure (NdzRange Nat) :=
  match ndz.rangemap.ranges[i]? with
  | none => .error .assertion
  | some range => .ok range

def rangeChunk (range : NdzRange Nat) : Except Failure Nat := do
  let chunkno := range.data.getD 0
  assert (chunkno ≠ 0)
  return chunkno - 1

/-- Where the reading of a chunk starts: the number of the range and the sector. -/
structure Start where
  crange : Nat
  csect : Nat
  chunk : ChunkReader

/-- Open a chunk and find the first of its ranges. -/
def openChunk (ndz : ImageFile) (chunkno : Nat) : Except Failure (Start × ImageFile) :=
  match ndz.chunkmap[chunkno]? with
  | none => .error .assertion
  | some bounds => do
    let (res, ndz) ← lookupRange ndz bounds.losect
    let i := res.range.getD (linkOf res.prev)
    let crange ← needRange ndz i
    assert (crange.start ≤ bounds.hisect)
    return (⟨i, crange.start, ndzChunkOpen ndz chunkno⟩, { ndz with chunksect := crange.start })

/-- Go on with the open chunk if it is the right one and not yet past the sector,
    or else begin with the chunk. -/
def startChunkAt (ndz : ImageFile) (chunkno range ssect : Nat) : Except Failure (Start × ImageFile) :=
  match ndz.chunkobj with
  | some chunk =>
    if chunk.chunkno = chunkno ∧ ndz.chunksect ≤ ssect then
      if ndz.chunksect = ssect then
        .ok (⟨range, ssect, chunk⟩, ndz)
      else do
        let (res, ndz) ← lookupRange ndz ndz.chunksect
        match res.range with
        | none => .error .assertion
        | some crange => return (⟨crange, ndz.chunksect, chunk⟩, ndz)
    else
      openChunk ndz chunkno
  | none => openChunk ndz chunkno

abbrev TOSSBUFSIZE : Nat := 128 * 1024

/-- Decompress a buffer full of what is in front of the start sector, which is in range number `range`. -/
def tossStep (ndz : ImageFile) (range ssect : Nat) (s : Start) : Except Failure Start := do
  let crange ← needRange ndz s.crange
  assert (range = s.crange ∨ crange.last < ssect)
  let resect := if range ≠ s.crange then addU64 crange.last 1 else ssect
  let rbytes := min (subU64 resect s.csect * SECSIZE) TOSSBUFSIZE
  let (tossbuf, chunk) := ndzChunkRead s.chunk rbytes
  if tossbuf.length ≠ rbytes then
    .error .error
  else
    let csect := s.csect + tossbuf.length / SECSIZE
    if range ≠ s.crange ∧ csect = addU64 crange.last 1 then do
      let next ← needRange ndz (s.crange + 1)
      return ⟨s.crange + 1, next.start, chunk⟩
    else
      return ⟨s.crange, csect, chunk⟩

/-- Decompress until the start sector. -/
def tossLoop (ndz : ImageFile) (range ssect : Nat) (s : Start) : Except Failure ChunkReader :=
  if s.csect < ssect then
    match tossStep ndz range ssect s with
    | .error e => .error e
    | .ok s' =>
      -- without progress the loop does not end
      if s'.csect ≤ s.csect then .error .error else tossLoop ndz range ssect s'
  else
    .ok s.chunk
termination_by ssect - s.csect

/-- How far the data have been read. -/
structure Reading where
  range : Nat
  ssect : Nat
  chunk : ChunkReader
  buf : List Byte

/-- What is returned: the sector that it got to, the data, and the state of the file. -/
abbrev ReadResult := Nat × List Byte × ImageFile

/-- Go on in the range behind one that has been read up to its end. -/
def readNext (ndz : ImageFile) (r : Reading) : Except Failure (ReadResult ⊕ Reading) :=
  match ndz.rangemap.ranges[r.range + 1]? with
  | none => .ok (.inl (r.ssect, r.buf, { ndz with chunkobj := none, chunksect := r.ssect }))
  | some next =>
    if next.start ≠ r.ssect then
      -- the end of contiguous data
      .ok (.inl (r.ssect, r.buf, { ndz with chunkobj := some r.chunk, chunksect := next.start }))
    else do
      let chunkno ← rangeChunk next
      if chunkno ≠ r.chunk.chunkno then do
        assert (chunkno = r.chunk.chunkno + 1)
        return .inr { r with range := r.range + 1, chunk := ndzChunkOpen ndz chunkno }
      else
        return .inr { r with range := r.range + 1 }

/-- Where the next call goes on after a request that ends at sector `ssect`. -/
def readDone (ndz : ImageFile) (rng : NdzRange Nat) (r : Reading) : ReadResult :=
  if r.ssect = addU64 rng.last 1 then
    match ndz.rangemap.ranges[r.range + 1]? with
    | none => (r.ssect, r.buf, { ndz with chunkobj := none, chunksect := r.ssect })
    | some next =>
      (r.ssect, r.buf, { ndz with chunkobj := some r.chunk, chunksect := next.start })
  else
    (r.ssect, r.buf, { ndz with chunkobj := some r.chunk, chunksect := r.ssect })

/-- Decompress what is wanted of a range. -/
def readStep (ndz : ImageFile) (esect : Nat) (r : Reading) : Except Failure (ReadResult ⊕ Reading) := do
  let rng ← needRange ndz r.range
  let resect := if esect < addU64 rng.last 1 then esect else addU64 rng.last 1
  let rbytes := subU64 resect r.ssect * SECSIZE
  let (data, chunk) := ndzChunkRead r.chunk rbytes
  if data.length ≠ rbytes then
    .error .error
  else
    let r := { r with ssect := resect, chunk := chunk, buf := r.buf ++ data }
    if resect < esect ∧ resect = addU64 rng.last 1 then
      readNext ndz r
    else if resect < esect then
      return .inr r
    else
      return .inl (readDone ndz rng r)

/-- Decompress up to `esect`, or to the end of contiguous data. -/
def readLoop (ndz : ImageFile) (esect : Nat) (r : Reading) : Except Failure ReadResult :=
  match readStep ndz esect r with
  | .error e => .error e
  | .ok (.inl res) => .ok res
  | .ok (.inr r') =>
    -- without progress the loop does not end
    if r'.ssect ≤ r.ssect ∨ esect ≤ r'.ssect then .error .error else readLoop ndz esect r'
termination_by esect - r.ssect

/-- Read as many contiguous sectors from `sect` on as there are, at most `nsect`:
    their number and their data. -/
def ndzReaddata (ndz : ImageFile) (nsect sect : Nat) : Except Failure (Nat × List Byte × ImageFile) := do
  let (res, ndz) ← lookupRange ndz sect
  match res.range with
  | none => return (0, [], ndz)
  | some range =>
    let rng ← needRange ndz range
    let chunkno ← rangeChunk rng
    let (start, ndz) ← startChunkAt ndz chunkno range sect
    assert (start.csect ≤ sect)
    let chunk ← tossLoop ndz range sect start
    let esect := addU64 sect nsect
    if sect < esect then do
      let (ssect, buf, ndz) ← readLoop ndz esect ⟨range, sect, chunk, []⟩
      return (subU64 ssect sect, buf, ndz)
    else do
      assert (sect = esect)
      let (ssect, buf, ndz) := readDone ndz rng ⟨range, sect, chunk, []⟩
      return (subU64 ssect sect, buf, ndz)

/-! ## Section 3: The data of an image -/

theorem readBytes_add (disk : Nat → Byte) (offset a b : Nat) :
    readBytes disk offset (a + b) = readBytes disk offset a ++ readBytes disk (offset + a) b := by
  unfold readBytes
  rw [range_add, map_append, List.map_map]
  congr 1
  apply map_congr_left
  intro i _
  show disk (offset + (a + i)) = disk (offset + a + i)
  rw [Nat.add_assoc]

/-- The contents of some sectors of a disk. -/
def readSectors (disk : Nat → Byte) (sect count : Nat) : List Byte :=
  readBytes disk (sectobytes sect) (sectobytes count)

@[simp] theorem length_readSectors (disk : Nat → Byte) (sect count : Nat) :
    (readSectors disk sect count).length = sectobytes count := length_readBytes _ _ _

theorem readSectors_add (disk : Nat → Byte) (sect a b : Nat) :
    readSectors disk sect (a + b) = readSectors disk sect a ++ readSectors disk (sect + a) b := by
  unfold readSectors
  rw [sectobytes_add, sectobytes_add, readBytes_add]

@[simp] theorem readSectors_zero (disk : Nat → Byte) (sect : Nat) : readSectors disk sect 0 = [] :=
  rfl

/-- What is in a chunk from a range of it on: this range and those that follow. -/
def chunkAhead (disk : Nat → Byte) (chunkno : Nat) (ranges : List (NdzRange Nat)) : List Byte :=
  (ranges.takeWhile fun r => r.data = some (chunkno + 1)).flatMap fun r =>
    readSectors disk r.start (r.last + 1 - r.start)

theorem chunkAhead_cons {disk : Nat → Byte} {chunkno : Nat} {r : NdzRange Nat}
    {ranges : List (NdzRange Nat)} (h : r.data = some (chunkno + 1)) :
    chunkAhead disk chunkno (r :: ranges) =
      readSectors disk r.start (r.last + 1 - r.start) ++ chunkAhead disk chunkno ranges := by
  unfold chunkAhead
  rw [takeWhile_cons_of_pos (by simpa using h), flatMap_cons]

structure ImageFile.Holds (ndz : ImageFile) (disk : Nat → Byte) : Prop where
  sorted : Sorted ndz.rangemap.ranges
  sectors : ∀ r ∈ ndz.rangemap.ranges, r.last < 2 ^ 32
  /-- The ranges have chunks, in ascending order. -/
  chunkno : ∀ r ∈ ndz.rangemap.ranges, ∃ c, r.data = some (c + 1)
  ordered : ndz.rangemap.ranges.Pairwise fun r r' => ∀ c c', r.data = some c → r'.data = some c' → c ≤ c'
  /-- Contiguous data go on in the next chunk. -/
  adjacent : ∀ pre r r' post, ndz.rangemap.ranges = pre ++ r :: r' :: post →
    r'.start = r.last + 1 → ∀ c c', r.data = some c → r'.data = some c' → c' ≤ c + 1
  /-- The chunk map finds the first range of each chunk, and the chunk has the data of its ranges. -/
  chunks : ∀ pre r post c, ndz.rangemap.ranges = pre ++ r :: post → r.data = some (c + 1) →
    (∀ p ∈ pre, p.data ≠ some (c + 1)) →
    ndz.inflated c = some (chunkAhead disk c (r :: post)) ∧
    ∃ b, ndz.chunkmap[c]? = some b ∧ (∀ p ∈ pre, p.last < b.losect) ∧ b.losect ≤ r.last ∧ r.start ≤ b.hisect

/-- Sectors that the image has data for. -/
def ImageFile.Has (ndz : ImageFile) (x : Nat) : Prop := ∃ r ∈ ndz.rangemap.ranges, In x r

/-- The chunk is read up to sector `x`, which is in the range between `pre` and `post`. -/
structure ReadUpTo (ndz : ImageFile) (disk : Nat → Byte) (chunk : ChunkReader)
    (pre : List (NdzRange Nat)) (r : NdzRange Nat) (post : List (NdzRange Nat)) (x : Nat) :
    Prop where
  split : ndz.rangemap.ranges = pre ++ r :: post
  mem : In x r
  data : r.data = some (chunk.chunkno + 1)
  left : chunk.left = readSectors disk x (r.last + 1 - x) ++ chunkAhead disk chunk.chunkno post

/-- The invariant of a file that is read: the sector that comes next is known if it is in
    the open chunk, and else it is in a later one. -/
structure ImageFile.Ready (ndz : ImageFile) (disk : Nat → Byte) : Prop where
  holds : ndz.Holds disk
  next : ∀ chunk, ndz.chunkobj = some chunk →
    ∃ pre r post, ndz.rangemap.ranges = pre ++ r :: post ∧ In ndz.chunksect r ∧
      ((∃ c, r.data = some (c + 1) ∧ chunk.chunkno < c) ∨ ReadUpTo ndz disk chunk pre r post ndz.chunksect)

/-! ## Section 4: Reading finds the data -/

section Reading

variable {ndz : ImageFile} {disk : Nat → Byte}

/-- Only the contents of the file matter. -/
structure SameFile (ndz ndz' : ImageFile) : Prop where
  ranges : ndz'.rangemap.ranges = ndz.rangemap.ranges
  chunkmap : ndz'.chunkmap = ndz.chunkmap
  inflated : ndz'.inflated = ndz.inflated

theorem ImageFile.Holds.same {ndz' : ImageFile} (h : ndz.Holds disk) (hs : SameFile ndz ndz') :
    ndz'.Holds disk := by
  obtain ⟨hranges, hmap, hinf⟩ := hs
  constructor
  · rw [hranges]
    exact h.sorted
  · rw [hranges]
    exact h.sectors
  · rw [hranges]
    exact h.chunkno
  · rw [hranges]
    exact h.ordered
  · rw [hranges]
    exact h.adjacent
  · rw [hranges, hmap, hinf]
    exact h.chunks

variable {pre post : List (NdzRange Nat)} {r : NdzRange Nat}

theorem ReadUpTo.same {ndz' : ImageFile} {chunk : ChunkReader} {x : Nat} (h : ReadUpTo ndz disk chunk pre r post x)
    (hs : SameFile ndz ndz') : ReadUpTo ndz' disk chunk pre r post x :=
  ⟨hs.ranges.trans h.split, h.mem, h.data, h.left⟩

theorem needRange_eq (h : ndz.rangemap.ranges = pre ++ r :: post) : needRange ndz pre.length = .ok r := by
  unfold needRange
  rw [h, getElem?_length_append, List.head?_cons]

theorem needRange_succ {r r' : NdzRange Nat} (h : ndz.rangemap.ranges = pre ++ r :: r' :: post) :
    ndz.rangemap.ranges[pre.length + 1]? = some r' := by
  have h' : ndz.rangemap.ranges = (pre ++ [r]) ++ r' :: post := by rw [h, append_assoc]; rfl
  have hlen : (pre ++ [r]).length = pre.length + 1 := by simp
  rw [← hlen, h', getElem?_length_append, List.head?_cons]

theorem ReadUpTo.read {chunk : ChunkReader}
    {x n : Nat} (h : ReadUpTo ndz disk chunk pre r post x) (hn : x + n ≤ r.last + 1) :
    ∃ chunk', ndzChunkRead chunk (n * SECSIZE) = (readSectors disk x n, chunk') ∧ chunk'.chunkno = chunk.chunkno ∧
      chunk'.left = readSectors disk (x + n) (r.last + 1 - (x + n)) ++ chunkAhead disk chunk.chunkno post := by
  have hsplit : chunk.left = readSectors disk x n ++ (readSectors disk (x + n) (r.last + 1 - (x + n)) ++
        chunkAhead disk chunk.chunkno post) := by
    rw [h.left, show r.last + 1 - x = n + (r.last + 1 - (x + n)) by omega, readSectors_add, append_assoc]
  have hlen : n * SECSIZE = (readSectors disk x n).length := by rw [length_readSectors]; rfl
  refine ⟨{ chunk with left := chunk.left.drop (n * SECSIZE) }, ?_, rfl, ?_⟩
  · unfold ndzChunkRead
    rw [hsplit, hlen, take_left]
  · show chunk.left.drop (n * SECSIZE) = _
    rw [hsplit, hlen, drop_left]

theorem ReadUpTo.behind {chunk : ChunkReader}
    {r r' : NdzRange Nat} (hs : ndz.Holds disk) (hsplit : ndz.rangemap.ranges = pre ++ r :: r' :: post)
    (hleft : chunk.left = chunkAhead disk chunk.chunkno (r' :: post))
    (hdata : r'.data = some (chunk.chunkno + 1)) : ReadUpTo ndz disk chunk (pre ++ [r]) r' post r'.start := by
  have hmem : r' ∈ ndz.rangemap.ranges := by simp [hsplit]
  constructor
  · rw [hsplit, append_assoc]
    rfl
  · exact ⟨le_rfl, hs.sorted.nonempty r' hmem⟩
  · exact hdata
  · rw [hleft, chunkAhead_cons hdata]

theorem split_of_lt {α : Type} {pre pre' post post' : List α} {r r' : α}
    (h : pre' ++ r' :: post' = pre ++ r :: post) (hlt : pre'.length < pre.length) :
    ∃ mid, pre = pre' ++ r' :: mid ∧ post' = mid ++ r :: post := by
  obtain ⟨mid, hpre, hpost⟩ | ⟨mid, hpre, hpost⟩ := append_eq_append_iff.mp h
  · cases mid with
    | nil =>
      rw [append_nil] at hpre
      rw [hpre] at hlt
      exact absurd hlt (lt_irrefl _)
    | cons x mid =>
      obtain ⟨hx, hpost⟩ := List.cons.inj hpost
      exact ⟨mid, hx ▸ hpre, hpost⟩
  · rw [hpre, length_append] at hlt
    omega

theorem split_unique {pre pre' post post' : List (NdzRange Nat)} {r r' : NdzRange Nat} {x : Nat}
    (hs : Sorted (pre ++ r :: post)) (h : pre ++ r :: post = pre' ++ r' :: post') (hr : In x r)
    (hr' : In x r') : pre = pre' ∧ r = r' ∧ post = post' := by
  have h1 := hr.1
  have h2 := hr.2
  have h3 := hr'.1
  have h4 := hr'.2
  obtain hlt | heq | hgt := Nat.lt_trichotomy pre.length pre'.length
  · obtain ⟨mid, rfl, rfl⟩ := split_of_lt h hlt
    have := hs.last_lt
    omega
  · obtain ⟨rfl, htail⟩ := append_inj h heq
    obtain ⟨rfl, rfl⟩ := List.cons.inj htail
    exact ⟨rfl, rfl, rfl⟩
  · obtain ⟨mid, rfl, rfl⟩ := split_of_lt h.symm hgt
    rw [h] at hs
    have := hs.last_lt
    omega

theorem ImageFile.Holds.between (h : ndz.Holds disk) {pre mid post : List (NdzRange Nat)}
    {r r₁ r₂ : NdzRange Nat} {c : Nat} (hsplit : ndz.rangemap.ranges = pre ++ r :: r₁ :: (mid ++ r₂ :: post))
    (hdata : r.data = some (c + 1)) (hdata₂ : r₂.data = some (c + 1)) : r₁.data = some (c + 1) := by
  have hmem : r₁ ∈ ndz.rangemap.ranges := by simp [hsplit]
  obtain ⟨c₁, hc₁⟩ := h.chunkno r₁ hmem
  have hord := h.ordered
  rw [hsplit] at hord
  obtain ⟨hr, hord⟩ := pairwise_cons.mp (pairwise_append.mp hord).2.1
  have h₁ := hr r₁ mem_cons_self _ _ hdata hc₁
  have h₂ := (pairwise_cons.mp hord).1 r₂ (by simp) _ _ hc₁ hdata₂
  rw [hc₁]
  congr 1
  omega

variable {rng : NdzRange Nat}

theorem tossStep_spec (hs : ndz.Holds disk)
    (hsplit : ndz.rangemap.ranges = pre ++ rng :: post) {ssect : Nat} (hin : In ssect rng)
    {s : Start} {pre' post' : List (NdzRange Nat)} {r' : NdzRange Nat}
    (hat : ReadUpTo ndz disk s.chunk pre' r' post' s.csect) (hcrange : s.crange = pre'.length)
    (hdata : rng.data = some (s.chunk.chunkno + 1)) (hlt : s.csect < ssect) :
    ∃ s' pre'' r'' post'', tossStep ndz pre.length ssect s = .ok s' ∧
      ReadUpTo ndz disk s'.chunk pre'' r'' post'' s'.csect ∧ s'.crange = pre''.length ∧
      s'.chunk.chunkno = s.chunk.chunkno ∧ s.csect < s'.csect ∧ s'.csect ≤ ssect := by
  have hlast := hs.sectors r' (by rw [hat.split]; simp)
  have hwrap : addU64 r'.last 1 = r'.last + 1 := addU64_of_lt (by omega)
  have hmem := hat.mem
  -- at most 256 sectors at a time
  have hbuf : ∀ k, min (k * SECSIZE) TOSSBUFSIZE = min k 256 * SECSIZE := by
    intro k
    have htoss : TOSSBUFSIZE = 256 * SECSIZE := rfl
    rw [htoss, Nat.mul_min_mul_right]
  have hcount : ∀ k, sectobytes k / SECSIZE = k := fun k => Nat.mul_div_cancel k (by decide)
  by_cases heq : pre.length = pre'.length
  · -- in the target range
    obtain ⟨rfl, htail⟩ := append_inj (hsplit.symm.trans hat.split) heq
    obtain ⟨rfl, rfl⟩ := List.cons.inj htail
    have hle : ssect ≤ rng.last := hin.2
    have hsub : subU64 ssect s.csect = ssect - s.csect := subU64_of_le (by omega) (by omega)
    obtain ⟨chunk', hread, hno, hleft⟩ :=
      hat.read (show s.csect + min (ssect - s.csect) 256 ≤ rng.last + 1 by omega)
    refine ⟨⟨pre.length, s.csect + min (ssect - s.csect) 256, chunk'⟩, pre, rng, post, ?_, ?_, rfl, hno, ?_, ?_⟩
    · unfold tossStep
      rw [hcrange, needRange_eq hat.split]
      simp only [ne_eq, not_true_eq_false, if_false, false_and, true_or, decide_true, assert_true,
        bind, Except.bind, hsub, hbuf, hread, length_readSectors, hcount]
      rw [if_neg (show ¬¬sectobytes _ = _ * SECSIZE from not_not_intro rfl)]
      rfl
    · constructor
      · exact hsplit
      · constructor
        · show rng.start ≤ s.csect + min (ssect - s.csect) 256
          have := hmem.1
          omega
        · show s.csect + min (ssect - s.csect) 256 ≤ rng.last
          omega
      · rw [hno]
        exact hdata
      · rw [hno]
        exact hleft
    · show s.csect < s.csect + min (ssect - s.csect) 256
      omega
    · show s.csect + min (ssect - s.csect) 256 ≤ ssect
      omega
  · -- in a range in front of it
    have hpos : pre'.length < pre.length := by
      by_contra hge
      obtain ⟨mid, rfl, rfl⟩ :=
        split_of_lt (hsplit.symm.trans hat.split) (show pre.length < pre'.length by omega)
      have hsorted := hs.sorted
      rw [hsplit] at hsorted
      have hbehind := hsorted.last_lt
      have := hin.2
      have := hmem.1
      omega
    obtain ⟨mid, rfl, rfl⟩ := split_of_lt (hat.split.symm.trans hsplit) hpos
    have hranges := hat.split
    have hsorted := hs.sorted
    rw [hranges] at hsorted
    have hfront : r'.last < ssect := lt_of_lt_of_le hsorted.last_lt hin.1
    have hsub : subU64 (r'.last + 1) s.csect = r'.last + 1 - s.csect := by
      have := hmem.2
      exact subU64_of_le (by omega) (by omega)
    have hsmall := hmem.2
    obtain ⟨chunk', hread, hno, hleft⟩ :=
      hat.read (show s.csect + min (r'.last + 1 - s.csect) 256 ≤ r'.last + 1 by omega)
    have hstep : ∀ s', (if s.csect + min (r'.last + 1 - s.csect) 256 = r'.last + 1 then do
          let next ← needRange ndz (pre'.length + 1)
          return ⟨pre'.length + 1, next.start, chunk'⟩
        else return ⟨pre'.length, s.csect + min (r'.last + 1 - s.csect) 256, chunk'⟩ :
          Except Failure Start) = .ok s' →
        tossStep ndz (pre' ++ r' :: mid).length ssect s = .ok s' := by
      intro s' hs'
      unfold tossStep
      rw [hcrange, needRange_eq hat.split]
      simp only [ne_eq, heq, not_false_eq_true, if_true, true_and, false_or, hfront, decide_true,
        assert_true, bind, Except.bind, hwrap, hsub, hbuf, hread, length_readSectors, hcount]
      rw [if_neg (show ¬¬sectobytes _ = _ * SECSIZE from not_not_intro rfl)]
      exact hs'
    by_cases hend : s.csect + min (r'.last + 1 - s.csect) 256 = r'.last + 1
    · -- and on to the next one, which is in the chunk as well
      obtain ⟨next, rest, hnext, hnextData, hnextLe⟩ : ∃ next rest, mid ++ rng :: post = next :: rest ∧
          next.data = some (s.chunk.chunkno + 1) ∧ next.start ≤ ssect := by
        cases mid with
        | nil => exact ⟨rng, post, rfl, hdata, hin.1⟩
        | cons next mid =>
          refine ⟨next, mid ++ rng :: post, rfl, hs.between hranges hat.data hdata, ?_⟩
          have hsorted' := (sorted_cons.mp (sorted_append.mp hsorted).2.1).2.2
          have hlt := (sorted_cons.mp hsorted').2.1 rng (by simp)
          have := hsorted'.nonempty next mem_cons_self
          have := hin.1
          omega
      rw [hnext] at hranges hsorted hleft
      have hneed : needRange ndz (pre'.length + 1) = .ok next := by
        unfold needRange
        rw [needRange_succ hranges]
      refine ⟨⟨pre'.length + 1, next.start, chunk'⟩, pre' ++ [r'], next, rest, ?_, ?_, ?_, hno, ?_, hnextLe⟩
      · apply hstep
        rw [if_pos hend, hneed]
        rfl
      · apply ReadUpTo.behind hs hranges
        · rw [hleft, hend, Nat.sub_self, readSectors_zero, nil_append, hno]
        · rw [hno]
          exact hnextData
      · simp
      · have := (sorted_cons.mp (sorted_append.mp hsorted).2.1).2.1 next mem_cons_self
        show s.csect < next.start
        omega
    · refine ⟨⟨pre'.length, s.csect + min (r'.last + 1 - s.csect) 256, chunk'⟩, pre', r',
        mid ++ rng :: post, ?_, ?_, rfl, hno, ?_, ?_⟩
      · apply hstep
        rw [if_neg hend]
        rfl
      · constructor
        · exact hranges
        · constructor
          · show r'.start ≤ s.csect + min (r'.last + 1 - s.csect) 256
            have := hmem.1
            omega
          · show s.csect + min (r'.last + 1 - s.csect) 256 ≤ r'.last
            omega
        · rw [hno]
          exact hat.data
        · rw [hno]
          exact hleft
      · show s.csect < s.csect + min (r'.last + 1 - s.csect) 256
        omega
      · show s.csect + min (r'.last + 1 - s.csect) 256 ≤ ssect
        omega

/-- All that is in front of the start sector is skipped. -/
theorem tossLoop_spec (hs : ndz.Holds disk)
    (hsplit : ndz.rangemap.ranges = pre ++ rng :: post) {ssect : Nat} (hin : In ssect rng)
    {s : Start} {pre' post' : List (NdzRange Nat)} {r' : NdzRange Nat}
    (hat : ReadUpTo ndz disk s.chunk pre' r' post' s.csect) (hcrange : s.crange = pre'.length)
    (hdata : rng.data = some (s.chunk.chunkno + 1)) (hle : s.csect ≤ ssect) :
    ∃ chunk, tossLoop ndz pre.length ssect s = .ok chunk ∧ ReadUpTo ndz disk chunk pre rng post ssect := by
  induction hk : ssect - s.csect using Nat.strong_induction_on generalizing s pre' r' post' with
  | _ k ih =>
    unfold tossLoop
    by_cases hlt : s.csect < ssect
    · obtain ⟨s', pre'', r'', post'', hstep, hat', hcrange', hno, hprogress, hle'⟩ :=
        tossStep_spec hs hsplit hin hat hcrange hdata hlt
      obtain ⟨chunk, hloop, hres⟩ := ih (ssect - s'.csect) (by omega) hat' hcrange'
        (by rw [hno]; exact hdata) hle' rfl
      refine ⟨chunk, ?_, hres⟩
      rw [if_pos hlt, hstep]
      simp only
      rw [if_neg (by omega), hloop]
    · -- the range with this sector is the target range
      have heq : s.csect = ssect := by omega
      refine ⟨s.chunk, if_neg hlt, ?_⟩
      have hmem := hat.mem
      rw [heq] at hmem
      have hsorted := hs.sorted
      rw [hsplit] at hsorted
      obtain ⟨rfl, rfl, rfl⟩ := split_unique hsorted (hsplit.symm.trans hat.split) hin hmem
      rw [← heq]
      exact hat

/-- The range that contains the sector behind another range begins there. -/
theorem next_of_has (hs : ndz.Holds disk)
    (hsplit : ndz.rangemap.ranges = pre ++ rng :: post) (hhas : ndz.Has (rng.last + 1)) :
    ∃ next rest, post = next :: rest ∧ next.start = rng.last + 1 := by
  obtain ⟨r, hr, hin⟩ := hhas
  have hin1 := hin.1
  have hin2 := hin.2
  have hsorted := hs.sorted
  rw [hsplit] at hr hsorted
  obtain ⟨_, htail, hfront⟩ := sorted_append.mp hsorted
  obtain ⟨hle, hpost, hrest⟩ := sorted_cons.mp htail
  have hmem : r ∈ post := by
    rcases mem_append.mp hr with hr | hr
    · have := hfront r hr rng mem_cons_self
      omega
    · rcases mem_cons.mp hr with rfl | hr
      · omega
      · exact hr
  cases post with
  | nil => simp at hmem
  | cons next rest =>
    refine ⟨next, rest, rfl, ?_⟩
    have hnext := hpost next mem_cons_self
    have hlast := hrest.nonempty next mem_cons_self
    rcases mem_cons.mp hmem with rfl | hmem
    · omega
    · have := (sorted_cons.mp hrest).2.1 r hmem
      omega

theorem ImageFile.Holds.later (h : ndz.Holds disk) {pre rest : List (NdzRange Nat)}
    {rng next : NdzRange Nat} {c : Nat} (hsplit : ndz.rangemap.ranges = pre ++ rng :: next :: rest)
    (hdata : rng.data = some (c + 1)) : ∃ c', next.data = some (c' + 1) ∧ c ≤ c' := by
  have hmem : next ∈ ndz.rangemap.ranges := by simp [hsplit]
  obtain ⟨c', hc'⟩ := h.chunkno next hmem
  have hord := h.ordered
  rw [hsplit] at hord
  have hle := (pairwise_cons.mp (pairwise_append.mp hord).2.1).1 next mem_cons_self _ _ hdata hc'
  exact ⟨c', hc', by omega⟩

theorem ImageFile.Holds.opened (h : ndz.Holds disk) {pre rest : List (NdzRange Nat)}
    {rng next : NdzRange Nat} {c c' : Nat}
    (hsplit : ndz.rangemap.ranges = pre ++ rng :: next :: rest) (hdata : rng.data = some (c + 1))
    (hnext : next.data = some (c' + 1)) (hlt : c < c') :
    ReadUpTo ndz disk (ndzChunkOpen ndz c') (pre ++ [rng]) next rest next.start := by
  have hsplit' : ndz.rangemap.ranges = (pre ++ [rng]) ++ next :: rest := by
    rw [hsplit, append_assoc]
    rfl
  have hmem : next ∈ ndz.rangemap.ranges := by simp [hsplit]
  have hfirst : ∀ p ∈ pre ++ [rng], p.data ≠ some (c' + 1) := by
    intro p hp hpdata
    have hord := h.ordered
    rw [hsplit] at hord
    rcases mem_append.mp hp with hp | hp
    · have := (pairwise_append.mp hord).2.2 p hp rng mem_cons_self _ _ hpdata hdata
      omega
    · obtain rfl := mem_singleton.mp hp
      rw [hdata] at hpdata
      simp only [Option.some.injEq] at hpdata
      omega
  obtain ⟨hinflated, _⟩ := h.chunks _ _ _ _ hsplit' hnext hfirst
  constructor
  · exact hsplit'
  · exact ⟨le_rfl, h.sorted.nonempty next hmem⟩
  · exact hnext
  · unfold ndzChunkOpen
    rw [hinflated, getD_some, chunkAhead_cons hnext]

theorem readNext_spec (hs : ndz.Holds disk) {pre rest : List (NdzRange Nat)}
    {rng next : NdzRange Nat} (hsplit : ndz.rangemap.ranges = pre ++ rng :: next :: rest)
    (hstart : next.start = rng.last + 1) {r : Reading} (hssect : r.ssect = rng.last + 1)
    (hrange : r.range = pre.length) (hdata : rng.data = some (r.chunk.chunkno + 1))
    (hleft : r.chunk.left = chunkAhead disk r.chunk.chunkno (next :: rest)) :
    ∃ chunk, readNext ndz r = .ok (.inr { r with range := r.range + 1, chunk := chunk }) ∧
      ReadUpTo ndz disk chunk (pre ++ [rng]) next rest r.ssect := by
  obtain ⟨c', hc', hle⟩ := hs.later hsplit hdata
  have hchunk : rangeChunk next = .ok c' := by
    unfold rangeChunk
    rw [hc']
    simp [bind, Except.bind, pure, Except.pure]
  unfold readNext
  rw [hrange, needRange_succ hsplit]
  simp only [hchunk, bind, Except.bind]
  rw [if_neg (by omega)]
  by_cases hsame : c' = r.chunk.chunkno
  · refine ⟨r.chunk, ?_, ?_⟩
    · rw [if_neg (by simpa using hsame)]
      rfl
    · have := ReadUpTo.behind hs hsplit hleft (hsame ▸ hc')
      rwa [hstart, ← hssect] at this
  · have hadj := hs.adjacent pre rng next rest hsplit hstart _ _ hdata hc'
    refine ⟨ndzChunkOpen ndz c', ?_, ?_⟩
    · rw [if_pos hsame, decide_eq_true (show c' = r.chunk.chunkno + 1 by omega)]
      rfl
    · have := hs.opened hsplit hdata hc' (by omega)
      rwa [hstart, ← hssect] at this

theorem readDone_spec (hs : ndz.Holds disk) (hsplit : ndz.rangemap.ranges = pre ++ rng :: post) {r : Reading}
    (hwrap : addU64 rng.last 1 = rng.last + 1) (hrange : r.range = pre.length)
    (hdata : rng.data = some (r.chunk.chunkno + 1)) (hlo : rng.start ≤ r.ssect) (hhi : r.ssect ≤ rng.last + 1)
    (hleft : r.chunk.left = readSectors disk r.ssect (rng.last + 1 - r.ssect) ++
      chunkAhead disk r.chunk.chunkno post) :
    ∃ ndz', readDone ndz rng r = (r.ssect, r.buf, ndz') ∧ SameFile ndz ndz' ∧ ndz'.Ready disk := by
  unfold readDone
  rw [hwrap]
  by_cases hend : r.ssect = rng.last + 1
  · rw [if_pos hend, hrange]
    cases post with
    | nil =>
      have hnone : ndz.rangemap.ranges[pre.length + 1]? = none := by
        rw [hsplit]
        simp
      rw [hnone]
      have hsame : SameFile ndz { ndz with chunkobj := none, chunksect := r.ssect } := ⟨rfl, rfl, rfl⟩
      exact ⟨_, rfl, hsame, hs.same hsame, fun chunk hchunk => by simp at hchunk⟩
    | cons next rest =>
      rw [needRange_succ hsplit]
      have hsame : SameFile ndz { ndz with chunkobj := some r.chunk, chunksect := next.start } :=
        ⟨rfl, rfl, rfl⟩
      refine ⟨_, rfl, hsame, hs.same hsame, ?_⟩
      intro chunk hchunk
      obtain rfl : r.chunk = chunk := some.inj hchunk
      have hmem : next ∈ ndz.rangemap.ranges := by simp [hsplit]
      refine ⟨pre ++ [rng], next, rest, by simp [hsplit], ⟨le_rfl, hs.sorted.nonempty next hmem⟩, ?_⟩
      obtain ⟨c', hc', hle⟩ := hs.later hsplit hdata
      by_cases hchunkno : c' = r.chunk.chunkno
      · right
        apply ReadUpTo.same _ hsame
        apply ReadUpTo.behind hs hsplit
        · rw [hleft, hend, Nat.sub_self, readSectors_zero, nil_append]
        · rw [hc', hchunkno]
      · left
        exact ⟨c', hc', by omega⟩
  · rw [if_neg hend]
    have hsame : SameFile ndz { ndz with chunkobj := some r.chunk, chunksect := r.ssect } := ⟨rfl, rfl, rfl⟩
    refine ⟨_, rfl, hsame, hs.same hsame, ?_⟩
    intro chunk hchunk
    obtain rfl : r.chunk = chunk := some.inj hchunk
    have hin : In r.ssect rng := ⟨hlo, by omega⟩
    exact ⟨pre, rng, post, hsplit, hin, .inr ⟨hsplit, hin, hdata, hleft⟩⟩

theorem readNext_stop (hsplit : ndz.rangemap.ranges = pre ++ rng :: post)
    (hstop : ∀ next ∈ post.head?, next.start ≠ rng.last + 1) {r : Reading}
    (hwrap : addU64 rng.last 1 = rng.last + 1) (hssect : r.ssect = rng.last + 1)
    (hrange : r.range = pre.length) : readNext ndz r = .ok (.inl (readDone ndz rng r)) := by
  unfold readNext readDone
  rw [hwrap, if_pos hssect, hrange]
  cases post with
  | nil =>
    have hnone : ndz.rangemap.ranges[pre.length + 1]? = none := by
      rw [hsplit]
      simp
    rw [hnone]
  | cons next rest =>
    have hne := hstop next rfl
    rw [needRange_succ hsplit]
    simp only
    rw [if_pos (by rwa [hssect])]

theorem readStep_spec (hs : ndz.Holds disk) {r : Reading} (hat : ReadUpTo ndz disk r.chunk pre rng post r.ssect)
    (hrange : r.range = pre.length) {esect : Nat} (hlt : r.ssect < esect) (hesect : esect < 2 ^ 64) :
    (∃ ssect ndz', readStep ndz esect r =
        .ok (.inl (ssect, r.buf ++ readSectors disk r.ssect (ssect - r.ssect), ndz')) ∧
      r.ssect < ssect ∧ ssect ≤ rng.last + 1 ∧ ssect ≤ esect ∧ (ssect < esect → ¬ndz.Has ssect) ∧
      SameFile ndz ndz' ∧ ndz'.Ready disk) ∨
    (rng.last + 1 < esect ∧ ∃ r' next rest, readStep ndz esect r = .ok (.inr r') ∧
      r'.ssect = rng.last + 1 ∧ r'.range = r.range + 1 ∧
      r'.buf = r.buf ++ readSectors disk r.ssect (r'.ssect - r.ssect) ∧
      ReadUpTo ndz disk r'.chunk (pre ++ [rng]) next rest r'.ssect) := by
  have hmem : rng ∈ ndz.rangemap.ranges := by simp [hat.split]
  have hlast := hs.sectors rng hmem
  have hwrap : addU64 rng.last 1 = rng.last + 1 := addU64_of_lt (by omega)
  have hin := hat.mem
  have hin1 := hin.1
  have hin2 := hin.2
  generalize hresect : (if esect < rng.last + 1 then esect else rng.last + 1) = resect
  have hresect' : resect = min esect (rng.last + 1) := by
    rw [← hresect]
    split
    · omega
    · omega
  have hsub : subU64 resect r.ssect = resect - r.ssect := subU64_of_le (by omega) (by omega)
  obtain ⟨chunk', hread, hno, hleft⟩ := hat.read (show r.ssect + (resect - r.ssect) ≤ rng.last + 1 by omega)
  rw [show r.ssect + (resect - r.ssect) = resect by omega, ← hno] at hleft
  have hdata := hat.data
  rw [← hno] at hdata
  generalize hr' : (⟨r.range, resect, chunk', r.buf ++ readSectors disk r.ssect (resect - r.ssect)⟩ : Reading) = r'
  have hssect' : r'.ssect = resect := by rw [← hr']
  have hrange' : r'.range = pre.length := by rw [← hr', ← hrange]
  have hbuf' : r'.buf = r.buf ++ readSectors disk r.ssect (resect - r.ssect) := by rw [← hr']
  have hchunk' : r'.chunk = chunk' := by rw [← hr']
  rw [← hchunk'] at hdata hleft
  rw [← hssect'] at hleft
  have hstep : readStep ndz esect r =
      if resect < esect ∧ resect = rng.last + 1 then readNext ndz r'
      else if resect < esect then .ok (.inr r')
      else .ok (.inl (readDone ndz rng r')) := by
    unfold readStep
    rw [hrange, needRange_eq hat.split]
    simp only [bind, Except.bind, hwrap, hresect, hsub, hread, length_readSectors]
    rw [if_neg (show ¬sectobytes _ ≠ _ * SECSIZE from not_not_intro rfl), ← hr', hrange]
    rfl
  obtain ⟨ndz', hdone, hsame, hready⟩ := readDone_spec hs hat.split hwrap hrange' hdata
    (by omega) (by omega) hleft
  rw [hssect', hbuf'] at hdone
  by_cases hend : resect < esect
  · have hresect_eq : resect = rng.last + 1 := by omega
    rw [hstep, if_pos ⟨hend, hresect_eq⟩]
    by_cases hcont : ∃ next ∈ post.head?, next.start = rng.last + 1
    · -- contiguous data follow
      obtain ⟨next, hnext, hstart⟩ := hcont
      obtain ⟨rest, rfl⟩ : ∃ rest, post = next :: rest := by
        cases post with
        | nil => cases hnext
        | cons c rest =>
          obtain rfl := some.inj hnext
          exact ⟨rest, rfl⟩
      have hahead : r'.chunk.left = chunkAhead disk r'.chunk.chunkno (next :: rest) := by
        rw [hleft, hssect', hresect_eq, Nat.sub_self, readSectors_zero, nil_append]
      obtain ⟨chunk, hread', hat'⟩ := readNext_spec hs hat.split hstart
        (hssect'.trans hresect_eq) hrange' hdata hahead
      right
      refine ⟨by omega, _, next, rest, hread', hssect'.trans hresect_eq, ?_, ?_, hat'⟩
      · rw [hrange', hrange]
      · rw [hbuf', hssect']
    · -- the end of contiguous data
      have hstop : ∀ next ∈ post.head?, next.start ≠ rng.last + 1 :=
        fun next hnext hstart => hcont ⟨next, hnext, hstart⟩
      rw [readNext_stop hat.split hstop hwrap (hssect'.trans hresect_eq) hrange', hdone]
      left
      refine ⟨resect, ndz', rfl, by omega, by omega, by omega, ?_, hsame, hready⟩
      intro _ hhas
      rw [hresect_eq] at hhas
      obtain ⟨next, rest, rfl, hstart⟩ := next_of_has hs hat.split hhas
      exact hstop next rfl hstart
  · rw [hstep, if_neg (fun h => hend h.1), if_neg hend, hdone]
    left
    exact ⟨resect, ndz', rfl, by omega, by omega, by omega, fun h => absurd h hend, hsame, hready⟩

/-- The loop returns the contiguous data up to the end of the request. -/
theorem readLoop_spec (hs : ndz.Holds disk) {r : Reading} (hat : ReadUpTo ndz disk r.chunk pre rng post r.ssect)
    (hrange : r.range = pre.length) {esect : Nat} (hlt : r.ssect < esect) (hesect : esect < 2 ^ 64) :
    ∃ ssect ndz', readLoop ndz esect r = .ok (ssect, r.buf ++ readSectors disk r.ssect (ssect - r.ssect), ndz') ∧
      r.ssect < ssect ∧ ssect ≤ esect ∧ (∀ x, r.ssect ≤ x → x < ssect → ndz.Has x) ∧
      (ssect < esect → ¬ndz.Has ssect) ∧ SameFile ndz ndz' ∧ ndz'.Ready disk := by
  induction hk : esect - r.ssect using Nat.strong_induction_on generalizing r pre rng post with
  | _ k ih =>
    subst hk
    have hin := hat.mem
    have hin1 := hin.1
    have hin2 := hin.2
    have hmem : rng ∈ ndz.rangemap.ranges := by simp [hat.split]
    unfold readLoop
    obtain ⟨ssect, ndz', hstep, hlo, hhi, hle, hstop, hres⟩ |
      ⟨hend, r', next, rest, hstep, hssect, hrange', hbuf, hat'⟩ :=
      readStep_spec hs hat hrange hlt hesect
    · rw [hstep]
      refine ⟨ssect, ndz', rfl, hlo, hle, ?_, hstop, hres⟩
      intro x hx hx'
      exact ⟨rng, hmem, by omega, by omega⟩
    · have hrange'' : r'.range = (pre ++ [rng]).length := by rw [hrange', hrange]; simp
      obtain ⟨ssect, ndz', hloop, hlo, hle, hall, hstop, hres⟩ :=
        ih (esect - r'.ssect) (by omega) hat' hrange'' (by omega) rfl
      refine ⟨ssect, ndz', ?_, by omega, hle, ?_, hstop, hres⟩
      · rw [hstep]
        simp only
        rw [if_neg (by omega), hloop, hbuf, append_assoc,
          show ssect - r.ssect = (r'.ssect - r.ssect) + (ssect - r'.ssect) by omega,
          readSectors_add, show r.ssect + (r'.ssect - r.ssect) = r'.ssect by omega]
      · intro x hx hx'
        by_cases hfirst : x < r'.ssect
        · exact ⟨rng, hmem, by omega, by omega⟩
        · exact hall x (by omega) hx'

theorem lookupRange_spec (hsorted : Sorted ndz.rangemap.ranges) (addr : Nat) :
    ∃ res ndz', lookupRange ndz addr = .ok (res, ndz') ∧ Found ndz.rangemap.ranges addr res ∧
      SameFile ndz ndz' ∧ ndz'.chunkobj = ndz.chunkobj ∧ ndz'.chunksect = ndz.chunksect := by
  obtain ⟨res, hres, hfound⟩ := ndzRangemapLookup_spec hsorted addr
  refine ⟨res, { ndz with rangemap := { ndz.rangemap with hint := res.hint } }, ?_, hfound,
    ⟨rfl, rfl, rfl⟩, rfl, rfl⟩
  unfold lookupRange
  rw [hres]

theorem Found.range_eq {ranges pre post : List (NdzRange Nat)} {x : Nat}
    {res : Lookup} (h : Found ranges x res) (hs : Sorted ranges) (hsplit : ranges = pre ++ r :: post)
    (hin : In x r) : res.range = some pre.length := by
  subst hsplit
  obtain ⟨pre', r', post', hsplit', hin', hrange, -, -⟩ | ⟨pre', post', hsplit', hbefore, hbehind, -, -, -⟩ := h
  · obtain ⟨rfl, _, _⟩ := split_unique hs hsplit' hin hin'
    exact hrange
  · have hmem : r ∈ pre' ++ post' := by
      rw [← hsplit']
      simp
    have h1 := hin.1
    have h2 := hin.2
    rcases mem_append.mp hmem with hmem | hmem
    · have := hbefore r hmem
      omega
    · have := hbehind r hmem
      omega

/-- The search for an address finds the first range that does not end before it, or the
    place in front of this range. -/
theorem Found.first {ranges pre post : List (NdzRange Nat)} {x : Nat}
    {res : Lookup} (h : Found ranges x res) (hs : Sorted ranges) (hsplit : ranges = pre ++ r :: post)
    (hbefore : ∀ p ∈ pre, p.last < x) (hlast : x ≤ r.last) : res.range.getD (linkOf res.prev) = pre.length := by
  by_cases hstart : r.start ≤ x
  · rw [h.range_eq hs hsplit ⟨hstart, hlast⟩, getD_some]
  · subst hsplit
    obtain ⟨pre', r', post', hsplit', hin', -, -, -⟩ |
      ⟨pre', post', hsplit', hbefore', hbehind, hrange, hprev, -⟩ := h
    · -- no range contains the address
      have hmem : r' ∈ pre ++ r :: post := by
        rw [hsplit']
        simp
      have h1 := hin'.1
      have h2 := hin'.2
      obtain ⟨_, htail, _⟩ := sorted_append.mp hs
      rcases mem_append.mp hmem with hmem | hmem
      · have := hbefore r' hmem
        omega
      · rcases mem_cons.mp hmem with rfl | hmem
        · omega
        · have := (sorted_cons.mp htail).2.1 r' hmem
          omega
    · rw [hrange, hprev, getD_none, linkOf_prevOf]
      obtain ⟨mid, hpre, hpost⟩ | ⟨mid, hpre, hpost⟩ := append_eq_append_iff.mp hsplit'
      · cases mid with
        | nil => rw [hpre, append_nil]
        | cons y mid =>
          obtain ⟨rfl, _⟩ := List.cons.inj hpost
          have := hbefore' r (by simp [hpre])
          omega
      · cases mid with
        | nil => rw [hpre, append_nil]
        | cons y mid =>
          have hy : y ∈ pre := by simp [hpre]
          have h1 := hbefore y hy
          have h2 := hbehind y (by simp [hpost])
          have h3 := hs.nonempty y (mem_append_left _ hy)
          omega

theorem openChunk_spec (hs : ndz.Holds disk)
    {c : Nat} (hsplit : ndz.rangemap.ranges = pre ++ rng :: post) (hdata : rng.data = some (c + 1)) :
    ∃ s ndz' pre' r' post', openChunk ndz c = .ok (s, ndz') ∧ SameFile ndz ndz' ∧
      ReadUpTo ndz disk s.chunk pre' r' post' s.csect ∧ s.crange = pre'.length ∧
      s.chunk.chunkno = c ∧ s.csect ≤ rng.start := by
  obtain ⟨pre', r', post', hsplit', hdata', hfirst⟩ : ∃ pre' r' post',
      ndz.rangemap.ranges = pre' ++ r' :: post' ∧ r'.data = some (c + 1) ∧ ∀ p ∈ pre', p.data ≠ some (c + 1) := by
    have hmem : rng ∈ ndz.rangemap.ranges := by simp [hsplit]
    have hsome : (ndz.rangemap.ranges.find? fun r => decide (r.data = some (c + 1))).isSome :=
      List.find?_isSome.mpr ⟨rng, hmem, decide_eq_true hdata⟩
    obtain ⟨r', hfind⟩ := isSome_iff_exists.mp hsome
    obtain ⟨hr', pre', post', hsplit', hfirst⟩ := List.find?_eq_some_iff_append.mp hfind
    exact ⟨pre', r', post', hsplit', of_decide_eq_true hr', fun p hp => by simpa using hfirst p hp⟩
  obtain ⟨hinflated, b, hb, hbefore, hlast, hhi⟩ := hs.chunks _ _ _ _ hsplit' hdata' hfirst
  obtain ⟨res, ndz', hlookup, hfound, hsame, -, -⟩ := lookupRange_spec hs.sorted b.losect
  have hindex := hfound.first hs.sorted hsplit' hbefore hlast
  have hmem : r' ∈ ndz.rangemap.ranges := by simp [hsplit']
  refine ⟨⟨pre'.length, r'.start, ndzChunkOpen ndz' c⟩, { ndz' with chunksect := r'.start }, pre', r',
    post', ?_, ⟨hsame.ranges, hsame.chunkmap, hsame.inflated⟩, ?_, rfl, rfl, ?_⟩
  · have hneed : needRange ndz' pre'.length = .ok r' := needRange_eq (hsame.ranges.trans hsplit')
    unfold openChunk
    rw [hb]
    simp only [hlookup, bind, Except.bind, hindex, hneed]
    rw [decide_eq_true hhi]
    rfl
  · constructor
    · exact hsplit'
    · exact ⟨le_rfl, hs.sorted.nonempty r' hmem⟩
    · exact hdata'
    · show (ndz'.inflated c).getD [] = _
      rw [hsame.inflated, hinflated, getD_some, chunkAhead_cons hdata']
      rfl
  · show r'.start ≤ rng.start
    have hsorted := hs.sorted
    obtain hlt | heq | hgt := Nat.lt_trichotomy pre.length pre'.length
    · obtain ⟨mid, rfl, rfl⟩ := split_of_lt (hsplit.symm.trans hsplit') hlt
      exact absurd hdata (hfirst rng (by simp))
    · obtain ⟨_, htail⟩ := append_inj (hsplit.symm.trans hsplit') heq
      obtain ⟨rfl, _⟩ := List.cons.inj htail
      exact le_rfl
    · obtain ⟨mid, rfl, rfl⟩ := split_of_lt (hsplit'.symm.trans hsplit) hgt
      have := hs.sorted.nonempty r' hmem
      rw [hsplit'] at hsorted
      have := hsorted.last_lt
      omega

theorem startChunkAt_spec (hready : ndz.Ready disk)
    {c ssect : Nat} (hsplit : ndz.rangemap.ranges = pre ++ rng :: post)
    (hdata : rng.data = some (c + 1)) (hin : In ssect rng) :
    ∃ s ndz' pre' r' post', startChunkAt ndz c pre.length ssect = .ok (s, ndz') ∧
      SameFile ndz ndz' ∧ ReadUpTo ndz disk s.chunk pre' r' post' s.csect ∧
      s.crange = pre'.length ∧ s.chunk.chunkno = c ∧ s.csect ≤ ssect := by
  have hs := hready.holds
  have hopen : ∃ s ndz' pre' r' post', openChunk ndz c = .ok (s, ndz') ∧ SameFile ndz ndz' ∧
      ReadUpTo ndz disk s.chunk pre' r' post' s.csect ∧ s.crange = pre'.length ∧
      s.chunk.chunkno = c ∧ s.csect ≤ ssect := by
    obtain ⟨s, ndz', pre', r', post', h, hsame, hat, hcrange, hno, hle⟩ := openChunk_spec hs hsplit hdata
    exact ⟨s, ndz', pre', r', post', h, hsame, hat, hcrange, hno, hle.trans hin.1⟩
  unfold startChunkAt
  cases hobj : ndz.chunkobj with
  | none => exact hopen
  | some chunk =>
    by_cases hgo : chunk.chunkno = c ∧ ndz.chunksect ≤ ssect
    · obtain ⟨hc, hle⟩ := hgo
      obtain ⟨pre₀, r₀, post₀, hsplit₀, hin₀, hnext⟩ := hready.next chunk hobj
      have hsorted := hs.sorted
      have hin1 := hin.1
      have hin2 := hin.2
      have hin01 := hin₀.1
      have hin02 := hin₀.2
      rcases hnext with ⟨c₀, hdata₀, hlt⟩ | hat
      · -- a later chunk begins behind this sector
        exfalso
        have hord := hs.ordered
        obtain hlt' | heq | hgt := Nat.lt_trichotomy pre.length pre₀.length
        · obtain ⟨mid, rfl, rfl⟩ := split_of_lt (hsplit.symm.trans hsplit₀) hlt'
          rw [hsplit] at hsorted
          have := hsorted.last_lt
          omega
        · obtain ⟨_, htail⟩ := append_inj (hsplit.symm.trans hsplit₀) heq
          obtain ⟨rfl, _⟩ := List.cons.inj htail
          rw [hdata₀] at hdata
          simp only [Option.some.injEq] at hdata
          omega
        · obtain ⟨mid, rfl, rfl⟩ := split_of_lt (hsplit₀.symm.trans hsplit) hgt
          rw [hsplit₀] at hord
          have := (pairwise_cons.mp (pairwise_append.mp hord).2.1).1 rng (by simp) _ _ hdata₀ hdata
          omega
      · simp only
        rw [if_pos ⟨hc, hle⟩]
        by_cases heq : ndz.chunksect = ssect
        · rw [if_pos heq]
          rw [hsplit₀] at hsorted
          obtain ⟨rfl, rfl, rfl⟩ := split_unique hsorted (hsplit₀.symm.trans hsplit) hin₀
            (by rw [heq]; exact hin)
          exact ⟨_, ndz, pre₀, r₀, post₀, rfl, ⟨rfl, rfl, rfl⟩, heq ▸ hat, rfl, hc, le_rfl⟩
        · rw [if_neg heq]
          obtain ⟨res, ndz', hlookup, hfound, hsame, -, hsect⟩ := lookupRange_spec hs.sorted ndz.chunksect
          have hres := hfound.range_eq hs.sorted hsplit₀ hin₀
          refine ⟨⟨pre₀.length, ndz.chunksect, chunk⟩, ndz', pre₀, r₀, post₀, ?_, hsame, hat, rfl, hc, hle⟩
          simp only [hlookup, bind, Except.bind, hres, hsect]
          rfl
    · simp only
      rw [if_neg hgo]
      exact hopen

/-- How much of a request can be returned: the contiguous sectors that there are. -/
structure Available (has : Nat → Prop) (sect nsect count : Nat) : Prop where
  le : count ≤ nsect
  all : ∀ x, sect ≤ x → x < sect + count → has x
  stop : count < nsect → ¬has (sect + count)

theorem Available.unique {has : Nat → Prop} {sect nsect count count' : Nat}
    (h : Available has sect nsect count) (h' : Available has sect nsect count') : count = count' := by
  obtain hlt | heq | hgt := Nat.lt_trichotomy count count'
  · exact absurd (h'.all (sect + count) (by omega) (by omega)) (h.stop (Nat.lt_of_lt_of_le hlt h'.le))
  · exact heq
  · exact absurd (h.all (sect + count') (by omega) (by omega)) (h'.stop (Nat.lt_of_lt_of_le hgt h.le))

theorem ImageFile.Has.same {ndz' : ImageFile} (hs : SameFile ndz ndz') {x : Nat} : ndz'.Has x ↔ ndz.Has x := by
  unfold ImageFile.Has
  rw [hs.ranges]

theorem SameFile.trans {ndz' ndz'' : ImageFile} (h : SameFile ndz ndz') (h' : SameFile ndz' ndz'') :
    SameFile ndz ndz'' :=
  ⟨h'.ranges.trans h.ranges, h'.chunkmap.trans h.chunkmap, h'.inflated.trans h.inflated⟩

/-- **Every request.** The contiguous sectors that the image has are returned, from whatever state the file
    is in, and the file is ready for the next request. The buffer has room for the sectors. -/
theorem ndzReaddata_available (hready : ndz.Ready disk) {nsect : Nat} (sect : Nat)
    (hbuf : nsect * SECSIZE < 2 ^ 64) :
    ∃ count ndz', ndzReaddata ndz nsect sect = .ok (count, readSectors disk sect count, ndz') ∧
      Available ndz.Has sect nsect count ∧ SameFile ndz ndz' ∧ ndz'.Ready disk := by
  have hs := hready.holds
  obtain ⟨res, ndz₁, hlookup, hfound, hsame₁, hobj, hsect⟩ := lookupRange_spec hs.sorted sect
  have hready₁ : ndz₁.Ready disk := by
    refine ⟨hs.same hsame₁, ?_⟩
    intro chunk hchunk
    rw [hobj] at hchunk
    obtain ⟨pre', r', post', hsplit', hin', hnext⟩ := hready.next chunk hchunk
    rw [hsect]
    exact ⟨pre', r', post', hsame₁.ranges.trans hsplit', hin', hnext.imp_right fun h => h.same hsame₁⟩
  by_cases hhas : ndz.Has sect
  swap
  · -- there are no data at the location
    have hnone : res.range = none := by
      obtain ⟨pre, r, post, hsplit, hin, -, -, -⟩ | ⟨pre, post, -, -, -, hnone, -, -⟩ := hfound
      · exact absurd ⟨r, by simp [hsplit], hin⟩ hhas
      · exact hnone
    refine ⟨0, ndz₁, ?_, ⟨Nat.zero_le _, ?_, fun _ => hhas⟩, hsame₁, hready₁⟩
    · unfold ndzReaddata
      simp only [hlookup, bind, Except.bind, hnone]
      rfl
    · intro x hx hx'
      omega
  obtain ⟨rng, hmem, hin⟩ := hhas
  have hin1 := hin.1
  have hin2 := hin.2
  have hlast := hs.sectors rng hmem
  obtain ⟨pre, post, hsplit⟩ := append_of_mem hmem
  obtain ⟨c, hdata⟩ := hs.chunkno rng hmem
  have hres := hfound.range_eq hs.sorted hsplit hin
  have hsplit₁ := hsame₁.ranges.trans hsplit
  obtain ⟨s, ndz₂, pre', r', post', hstart, hsame₂, hat, hcrange, hno, hle⟩ :=
    startChunkAt_spec hready₁ hsplit₁ hdata hin
  have hs₂ := hready₁.holds.same hsame₂
  have hsplit₂ := hsame₂.ranges.trans hsplit₁
  obtain ⟨chunk, htoss, hat₂⟩ :=
    tossLoop_spec hs₂ hsplit₂ hin (hat.same hsame₂) hcrange (by rw [hno]; exact hdata) hle
  have hneed : needRange ndz₁ pre.length = .ok rng := needRange_eq hsplit₁
  have hchunk : rangeChunk rng = .ok c := by
    unfold rangeChunk
    rw [hdata]
    simp [bind, Except.bind, pure, Except.pure]
  have hadd : addU64 sect nsect = sect + nsect := by
    simp only [SECSIZE] at hbuf
    exact addU64_of_lt (by omega)
  have hsame₁₂ := hsame₁.trans hsame₂
  unfold ndzReaddata
  simp only [hlookup, bind, Except.bind, hres, hneed, hchunk, hstart, hle, decide_true, assert_true, htoss, hadd]
  by_cases hpos : 0 < nsect
  · have hsum : sect + nsect < 2 ^ 64 := by
      simp only [SECSIZE] at hbuf
      omega
    obtain ⟨ssect, ndz', hread, hlo, hhi, hall, hstop, hsame₃, hready'⟩ :=
      readLoop_spec (r := ⟨pre.length, sect, chunk, []⟩) hs₂ hat₂ rfl (show sect < sect + nsect by omega) hsum
    have hlo' : sect < ssect := hlo
    have hsub : subU64 ssect sect = ssect - sect := subU64_of_le (by omega) (by omega)
    have hback : sect + (ssect - sect) = ssect := by omega
    refine ⟨ssect - sect, ndz', ?_, ⟨by omega, ?_, ?_⟩, hsame₁₂.trans hsame₃, hready'⟩
    · rw [if_pos (by omega), hread]
      simp only [hsub]
      rfl
    · intro x hx hx'
      exact (ImageFile.Has.same hsame₁₂).mp (hall x hx (by omega))
    · intro hlt hhas
      rw [hback] at hhas
      exact hstop (by omega) ((ImageFile.Has.same hsame₁₂).mpr hhas)
  · -- nothing is wanted: the file goes on from this sector
    have hwrap : addU64 rng.last 1 = rng.last + 1 := addU64_of_lt (by omega)
    obtain ⟨ndz', hdone, hsame₃, hready'⟩ := readDone_spec (r := ⟨pre.length, sect, chunk, []⟩)
      hs₂ hsplit₂ hwrap rfl hat₂.data hin1 (show sect ≤ rng.last + 1 by omega) hat₂.left
    obtain rfl : nsect = 0 := by omega
    have hsub : subU64 sect sect = 0 := by
      have hlt : sect < 2 ^ 64 := Nat.lt_trans (Nat.lt_of_le_of_lt hin2 hlast) (by decide)
      rw [subU64_of_le le_rfl hlt, Nat.sub_self]
    refine ⟨0, ndz', ?_, ⟨le_rfl, ?_, ?_⟩, hsame₁₂.trans hsame₃, hready'⟩
    · rw [Nat.add_zero, if_neg (lt_irrefl _), decide_eq_true rfl, assert_true]
      simp only [hdone, hsub]
      rfl
    · intro x hx hx'
      omega
    · intro hlt
      omega

/-- **`ndz_readdata` reads the image.** If the image has data for all sectors of a request
    then all of them are returned, and the file is ready for the next request. -/
theorem ndzReaddata_spec (hready : ndz.Ready disk) {nsect sect : Nat}
    (hstop : sect + nsect ≤ 2 ^ 32) (hall : ∀ x, sect ≤ x → x < sect + nsect → ndz.Has x) :
    ∃ ndz', ndzReaddata ndz nsect sect = .ok (nsect, readSectors disk sect nsect, ndz') ∧
      SameFile ndz ndz' ∧ ndz'.Ready disk := by
  have hbuf : nsect * SECSIZE < 2 ^ 64 := by
    simp only [SECSIZE]
    omega
  obtain ⟨count, ndz', hread, havail, hres⟩ := ndzReaddata_available hready sect hbuf
  obtain rfl : count = nsect := by
    by_contra hne
    have hlt := Nat.lt_of_le_of_ne havail.le hne
    exact havail.stop hlt (hall _ (by omega) (by omega))
  exact ⟨ndz', hread, hres⟩

end Reading

end Emulab.Imagezip
