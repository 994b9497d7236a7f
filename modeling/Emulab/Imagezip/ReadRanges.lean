import Emulab.Imagezip.ReadData
import Emulab.Imagezip.Chunk

/-! # The ranges of an image file

  When data are first read from a file, `ndz_readranges` reads the headers of
  all its chunks. It makes the map of the ranges with their chunk numbers, the
  map of the sectors that each chunk describes, and the list of relocations.

  A well-formed file has the sectors of a disk in ascending order. What is
  made of its headers then describes these sectors.
-/

namespace Emulab.Imagezip

open MachineInt IntervalMap Extent List Option

/-! ## Section 1: Reading the headers -/

abbrev COMPRESSED_V4 : Nat := COMPRESSED_V1 + 3

structure NdzImage where
  chunks : List ChunkImage
  /-- The size that `fstat` reports, if it succeeds. -/
  st_size : Option Nat

/-- The variables of `ndz_readranges` while it reads the regions of a chunk. -/
structure RegionsRead where
  map : NdzRangemap Nat
  first : Nat
  last : Nat
  clo : Nat
  chi : Nat

/-- The variables of `ndz_readranges` between two chunks. -/
structure RangesRead where
  map : NdzRangemap Nat
  chunkmap : List NdzBounds
  chunkmapentries : Nat
  first : Nat
  last : Nat
  ndz : NdzFile

/-- Add a region to the map. Headers of the first version do not say which sectors they describe. -/
def addRegion (hdr : Blockhdr) (chunkno i : Nat) (reg : Range) (s : RegionsRead) :
    Except Failure RegionsRead := do
  let last := subU64 (addU64 reg.start reg.size) 1
  let s :=
    if hdr.magic = COMPRESSED_V1 then
      { s with
        first := if chunkno = 0 then reg.start else s.first
        last := last
        clo := if i = 0 then reg.start else s.clo
        chi := last }
    else
      s
  let map ← allocResult .error
    (ndzRangemapAlloc s.map reg.start reg.size (some (chunkno + 1)) false)
  return { s with map := map }

def addRegions (hdr : Blockhdr) (chunkno : Nat) :
    Nat → List Range → RegionsRead → Except Failure RegionsRead
  | _, [], s => .ok s
  | i, reg :: regs, s => do
    let s ← addRegion hdr chunkno i reg s
    addRegions hdr chunkno (i + 1) regs s

/-- Make room for the chunk in the chunk map. -/
def growChunkmap (chunkmapentries chunkno : Nat) : Except Failure Nat :=
  if chunkmapentries ≤ chunkno then do
    assert (chunkno = chunkmapentries)
    return chunkno + 1
  else
    return chunkmapentries

/-- Read the relocations of a chunk, if there are any. -/
def readRelocs (ndz : NdzFile) (hdr : Blockhdr) : Except Failure NdzFile :=
  if hdr.magic ≠ COMPRESSED_V1 ∧ hdr.reloccount ≠ 0 then
    ndzRelocGet ndz hdr (REGIONWORDS * hdr.regioncount)
  else
    .ok ndz

def readHeader (hdr : Blockhdr) (chunkno : Nat) (s : RangesRead) : Except Failure RangesRead := do
  -- a bad version
  if hdr.magic < COMPRESSED_V1 ∨ COMPRESSED_V4 < hdr.magic then
    throw .error
  let r : RegionsRead :=
    if hdr.magic ≠ COMPRESSED_V1 then
      { map := s.map
        first := if chunkno = 0 then hdr.firstsect else s.first
        last := subU32 hdr.lastsect 1
        clo := hdr.firstsect
        chi := subU32 hdr.lastsect 1 }
    else
      { map := s.map, first := s.first, last := s.last, clo := 0, chi := 0 }
  let r ← addRegions hdr chunkno 0 hdr.regions r
  let entries ← growChunkmap s.chunkmapentries chunkno
  let ndz ← readRelocs s.ndz hdr
  return {
    map := r.map
    chunkmap := s.chunkmap ++ [⟨r.clo, r.chi⟩]
    chunkmapentries := entries
    first := r.first
    last := r.last
    ndz := ndz }

/-- Read the headers up to the end of the file. -/
def readHeaders : Nat → List ChunkImage → RangesRead → Except Failure RangesRead
  | _, [], s => .ok s
  | chunkno, chunk :: chunks, s => do
    let s ← readHeader chunk.hdr chunkno s
    readHeaders (chunkno + 1) chunks s

def ndzReadranges (image : NdzImage) (ndz : NdzFile) : Except Failure RangesRead :=
  -- the number of chunks if the size of the file is known
  let entries := ((image.st_size.getD 0) + CHUNKSIZE - 1) / CHUNKSIZE
  readHeaders 0 image.chunks
    { map := ndzRangemapInit NDZ_LOADDR (NDZ_HIADDR - NDZ_LOADDR)
      chunkmap := []
      chunkmapentries := entries
      first := 0
      last := 0
      ndz := ndz }

/-- The file with its ranges, before anything has been read from a chunk. `inflated` is what the
    data of a chunk are decompressed to. -/
def RangesRead.imageFile (s : RangesRead) (inflated : Nat → Option (List Byte)) : ImageFile where
  rangemap := s.map
  chunkmap := s.chunkmap
  inflated := inflated
  chunkobj := none
  chunksect := 0

/-! ## Section 2: Well-formed files -/

/-- The ranges of a map with the regions of chunk number `chunkno`. -/
def chunkRanges (chunkno : Nat) (regions : List Range) : List (NdzRange Nat) :=
  regions.map fun reg => ⟨reg.start, reg.stop - 1, some (chunkno + 1)⟩

def fileRanges : Nat → List ChunkImage → List (NdzRange Nat)
  | _, [] => []
  | chunkno, chunk :: chunks =>
    chunkRanges chunkno chunk.hdr.regions ++ fileRanges (chunkno + 1) chunks

def Blockhdr.relocations (hdr : Blockhdr) : List BlockReloc :=
  if hdr.magic = COMPRESSED_V1 then []
  else relocsAt hdr.table (REGIONWORDS * hdr.regioncount) hdr.reloccount

/-- An image file with the contents of a disk. -/
structure NdzImage.WellFormed (image : NdzImage) (inflate : List Byte → Option (List Byte))
    (disk : Nat → Byte) : Prop where
  magic : ∀ c ∈ image.chunks, COMPRESSED_V1 ≤ c.hdr.magic ∧ c.hdr.magic ≤ COMPRESSED_V4
  regions : Ascending (image.chunks.flatMap fun c => c.hdr.regions)
  sectors : ∀ c ∈ image.chunks, ∀ reg ∈ c.hdr.regions, reg.stop ≤ 2 ^ 32
  /-- From the second version on a header says which sectors its chunk describes. -/
  describes : ∀ c ∈ image.chunks, c.hdr.magic ≠ COMPRESSED_V1 → c.hdr.lastsect < 2 ^ 32 ∧
    ∀ reg ∈ c.hdr.regions, c.hdr.firstsect ≤ reg.start ∧ reg.stop ≤ c.hdr.lastsect
  /-- They are not described by an earlier chunk. -/
  apart : ∀ pre c post, image.chunks = pre ++ c :: post → c.hdr.magic ≠ COMPRESSED_V1 →
    ∀ p ∈ pre, ∀ reg ∈ p.hdr.regions, reg.stop ≤ c.hdr.firstsect
  /-- Contiguous data go on in the next chunk. -/
  adjacent : ∀ pre c mid c' post, image.chunks = pre ++ c :: (mid ++ c' :: post) →
    ∀ reg ∈ c.hdr.regions, ∀ reg' ∈ c'.hdr.regions, reg'.start = reg.stop → mid = []
  /-- The relocations of the file are ascending. -/
  relocs : (image.chunks.flatMap fun c => c.hdr.relocations).Pairwise fun r r' =>
    r.sector ≤ r'.sector
  data : ∀ c ∈ image.chunks, inflate c.data =
    some (c.hdr.regions.flatMap fun reg => readSectors disk reg.start reg.size)

/-! ## Section 3: Reading a well-formed file -/

theorem mem_chunkRanges {chunkno : Nat} {regions : List Range} {r : NdzRange Nat} :
    r ∈ chunkRanges chunkno regions ↔
      ∃ reg ∈ regions, r = ⟨reg.start, reg.stop - 1, some (chunkno + 1)⟩ := by
  unfold chunkRanges
  rw [List.mem_map]
  constructor
  · intro h
    obtain ⟨reg, hreg, heq⟩ := h
    exact ⟨reg, hreg, heq.symm⟩
  · intro h
    obtain ⟨reg, hreg, heq⟩ := h
    exact ⟨reg, hreg, heq.symm⟩

theorem fileRanges_append (n : Nat) (pre post : List ChunkImage) :
    fileRanges n (pre ++ post) = fileRanges n pre ++ fileRanges (n + pre.length) post := by
  induction pre generalizing n with
  | nil => rfl
  | cons c pre ih =>
    rw [cons_append, fileRanges, ih, fileRanges, append_assoc, length_cons, Nat.add_right_comm, Nat.add_assoc]

theorem mem_fileRanges {n : Nat} {chunks : List ChunkImage} {r : NdzRange Nat} :
    r ∈ fileRanges n chunks ↔ ∃ pre c post, chunks = pre ++ c :: post ∧
      r ∈ chunkRanges (n + pre.length) c.hdr.regions := by
  induction chunks generalizing n with
  | nil => simp [fileRanges]
  | cons c chunks ih =>
    rw [fileRanges, mem_append, ih]
    constructor
    · intro h
      rcases h with h | ⟨pre, c', post, rfl, h⟩
      · exact ⟨[], c, chunks, rfl, h⟩
      · refine ⟨c :: pre, c', post, rfl, ?_⟩
        rwa [length_cons, Nat.add_comm pre.length, ← Nat.add_assoc]
    · intro h
      obtain ⟨pre, c', post, hsplit, h⟩ := h
      cases pre with
      | nil =>
        obtain ⟨rfl, rfl⟩ := List.cons.inj hsplit
        exact Or.inl h
      | cons p pre =>
        obtain ⟨rfl, rfl⟩ := List.cons.inj hsplit
        rw [length_cons, Nat.add_comm pre.length, ← Nat.add_assoc] at h
        exact Or.inr ⟨pre, c', post, rfl, h⟩

theorem sorted_fileRanges {n : Nat} {chunks : List ChunkImage}
    (h : Ascending (chunks.flatMap fun c => c.hdr.regions)) : Sorted (fileRanges n chunks) := by
  induction chunks generalizing n with
  | nil => exact sorted_nil
  | cons c chunks ih =>
    rw [flatMap_cons] at h
    have hordered := pairwise_append.mp h.ordered
    obtain ⟨hc, hchunks, hcross⟩ := hordered
    have hrest : Ascending (chunks.flatMap fun c => c.hdr.regions) :=
      ⟨fun e he => h.nonempty e (mem_append_right _ he), hchunks⟩
    have hne : ∀ reg ∈ c.hdr.regions, reg.start ≤ reg.stop - 1 ∧ reg.stop - 1 < reg.stop := by
      intro reg hreg
      have := h.nonempty reg (mem_append_left _ hreg)
      unfold stop
      omega
    rw [fileRanges, sorted_append]
    refine ⟨⟨?_, ?_⟩, ih hrest, ?_⟩
    · intro r hr
      obtain ⟨reg, hreg, rfl⟩ := mem_chunkRanges.mp hr
      exact (hne reg hreg).1
    · unfold chunkRanges
      rw [pairwise_map]
      apply hc.imp_of_mem
      intro reg reg' hreg hreg' hle
      exact Nat.lt_of_lt_of_le (hne reg hreg).2 hle
    · intro r hr r' hr'
      obtain ⟨reg, hreg, rfl⟩ := mem_chunkRanges.mp hr
      obtain ⟨pre, c', post, rfl, hmem⟩ := mem_fileRanges.mp hr'
      obtain ⟨reg', hreg', rfl⟩ := mem_chunkRanges.mp hmem
      have hle := hcross reg hreg reg' (by simp; exact Or.inr (Or.inl hreg'))
      exact Nat.lt_of_lt_of_le (hne reg hreg).2 hle

/-- The sectors that a chunk describes, as the file keeps them. -/
def Blockhdr.bounds (hdr : Blockhdr) : NdzBounds :=
  if hdr.magic = COMPRESSED_V1 then
    { losect := (hdr.regions.head?.map fun reg => reg.start).getD 0
      hisect := (hdr.regions.getLast?.map fun reg => reg.stop - 1).getD 0 }
  else
    { losect := hdr.firstsect, hisect := subU32 hdr.lastsect 1 }

structure Filling (map : NdzRangemap Nat) (ranges : List (NdzRange Nat)) : Prop where
  inv : map.Inv
  loaddr : map.loaddr = NDZ_LOADDR
  hiaddr : map.hiaddr = NDZ_HIADDR - NDZ_LOADDR
  ranges : map.ranges = ranges

theorem region_le_hiaddr {start size : Nat} (h : start + size ≤ 2 ^ 32) :
    start + size - 1 ≤ NDZ_HIADDR - NDZ_LOADDR := by
  have hlt : start + size - 1 < 2 ^ 64 :=
    Nat.lt_of_le_of_lt (Nat.sub_le _ _) (Nat.lt_of_le_of_lt h (by decide))
  exact Nat.le_sub_one_of_lt hlt

/-- A region behind all others is added to the map. -/
theorem Filling.alloc {map : NdzRangemap Nat} {ranges : List (NdzRange Nat)}
    (h : Filling map ranges) {reg : Range} (hpos : 0 < reg.size) (hstop : reg.stop ≤ 2 ^ 32)
    (hbehind : ∀ r ∈ ranges, r.last < reg.start) (chunkno : Nat) :
    ∃ map', ndzRangemapAlloc map reg.start reg.size (some (chunkno + 1)) false =
        some (none, map') ∧
      Filling map' (ranges ++ [⟨reg.start, reg.stop - 1, some (chunkno + 1)⟩]) := by
  obtain ⟨hinv, hlo, hhi, rfl⟩ := h
  unfold stop at hstop
  -- the sectors in front of the region are fewer than 64 bits can count
  have hcount : map.sectors ≤ reg.start := by
    rw [hinv.sectors]
    by_cases hnil : map.ranges = []
    · rw [hnil]
      exact Nat.zero_le _
    · obtain ⟨r, hr⟩ := exists_mem_of_ne_nil _ hnil
      have hpos_start := hbehind r hr
      have hle := size_le hinv.sorted (fun r _ => Nat.zero_le r.start)
        (fun r hr => Nat.le_sub_one_of_lt (hbehind r hr))
      omega
  have hle_hi : reg.start + reg.size - 1 ≤ map.hiaddr := hhi ▸ region_le_hiaddr hstop
  have hroom : map.sectors + reg.size < 2 ^ 64 :=
    Nat.lt_of_le_of_lt (Nat.le_trans (Nat.add_le_add_right hcount _) hstop) (by decide)
  obtain ⟨map', halloc, heff, -⟩ := ndzRangemapAlloc_behind hinv reg.start reg.size
    (some (chunkno + 1)) hpos (by rw [hlo]; exact Nat.zero_le _) hle_hi hbehind hroom
  obtain ⟨-, -, hranges⟩ := ndzRangemapAlloc_behind_cases hinv hpos
    (by rw [hlo]; exact Nat.zero_le _) hle_hi hbehind halloc
  exact ⟨map', halloc, heff.inv, heff.bounds.1.trans hlo, heff.bounds.2.trans hhi, hranges rfl⟩

/-- The variables after a region that ends at sector `last`. -/
def RegionsRead.after (s : RegionsRead) (hdr : Blockhdr) (chunkno i start last : Nat)
    (map : NdzRangemap Nat) : RegionsRead :=
  if hdr.magic = COMPRESSED_V1 then
    { map := map
      first := if chunkno = 0 then start else s.first
      last := last
      clo := if i = 0 then start else s.clo
      chi := last }
  else
    { s with map := map }

theorem addRegion_eq (hdr : Blockhdr) {chunkno : Nat} (i : Nat) {reg : Range} {s : RegionsRead}
    {map' : NdzRangemap Nat} (hpos : 0 < reg.size) (hstop : reg.stop ≤ 2 ^ 32)
    (halloc : ndzRangemapAlloc s.map reg.start reg.size (some (chunkno + 1)) false =
      some (none, map')) :
    addRegion hdr chunkno i reg s = .ok (s.after hdr chunkno i reg.start (reg.stop - 1) map') := by
  have hlast : subU64 (addU64 reg.start reg.size) 1 = reg.stop - 1 := by
    unfold stop at hstop ⊢
    have hlt : reg.start + reg.size < 2 ^ 64 := Nat.lt_of_le_of_lt hstop (by decide)
    rw [addU64_of_lt hlt, subU64_of_le (by omega) hlt]
  unfold addRegion RegionsRead.after
  rw [hlast]
  split
  · dsimp only
    rw [halloc]
    rfl
  · dsimp only
    rw [halloc]
    rfl

theorem addRegions_spec (hdr : Blockhdr) (chunkno : Nat) {regs : List Range}
    (hasc : Ascending regs) (hsect : ∀ reg ∈ regs, reg.stop ≤ 2 ^ 32) (i : Nat) {s : RegionsRead}
    {ranges : List (NdzRange Nat)} (h : Filling s.map ranges)
    (hbehind : ∀ reg ∈ regs, ∀ r ∈ ranges, r.last < reg.start) :
    ∃ s', addRegions hdr chunkno i regs s = .ok s' ∧
      Filling s'.map (ranges ++ chunkRanges chunkno regs) ∧
      (hdr.magic ≠ COMPRESSED_V1 → s'.clo = s.clo ∧ s'.chi = s.chi) ∧
      (hdr.magic = COMPRESSED_V1 →
        s'.clo = (if i = 0 then (regs.head?.map fun reg => reg.start).getD s.clo else s.clo) ∧
        s'.chi = (regs.getLast?.map fun reg => reg.stop - 1).getD s.chi) := by
  induction regs generalizing i s ranges with
  | nil =>
    refine ⟨s, rfl, ?_, fun _ => ⟨rfl, rfl⟩, fun _ => ⟨?_, rfl⟩⟩
    · unfold chunkRanges
      rwa [map_nil, append_nil]
    · split <;> rfl
  | cons reg regs ih =>
    have hpos := hasc.nonempty reg mem_cons_self
    have hstop := hsect reg mem_cons_self
    obtain ⟨hfirst, hordered⟩ := pairwise_cons.mp hasc.ordered
    have hasc' : Ascending regs := ⟨fun e he => hasc.nonempty e (mem_cons_of_mem _ he), hordered⟩
    obtain ⟨map', halloc, hfill⟩ := h.alloc hpos hstop (hbehind reg mem_cons_self) chunkno
    have hstep := addRegion_eq hdr i hpos hstop halloc
    have hbehind' : ∀ reg' ∈ regs, ∀ r ∈ ranges ++ [⟨reg.start, reg.stop - 1, some (chunkno + 1)⟩],
        r.last < reg'.start := by
      intro reg' hreg' r hr
      rcases mem_append.mp hr with hr | hr
      · exact hbehind reg' (mem_cons_of_mem _ hreg') r hr
      · rw [mem_singleton.mp hr]
        have hle := hfirst reg' hreg'
        have hreg_pos : 0 < reg.stop := Nat.lt_of_lt_of_le hpos (Nat.le_add_left _ _)
        dsimp only
        omega
    have hmap : (s.after hdr chunkno i reg.start (reg.stop - 1) map').map = map' := by
      unfold RegionsRead.after
      split <;> rfl
    obtain ⟨s', hrun, hfill', hv2, hv1⟩ := ih hasc'
      (fun reg' hreg' => hsect reg' (mem_cons_of_mem _ hreg')) (i + 1) (hmap.symm ▸ hfill)
      hbehind'
    refine ⟨s', ?_, ?_, ?_, ?_⟩
    · unfold addRegions
      rw [hstep]
      exact hrun
    · rwa [append_assoc] at hfill'
    · intro hmagic
      rw [(hv2 hmagic).1, (hv2 hmagic).2]
      unfold RegionsRead.after
      rw [if_neg hmagic]
      exact ⟨rfl, rfl⟩
    · intro hmagic
      rw [(hv1 hmagic).1, (hv1 hmagic).2, if_neg (Nat.succ_ne_zero i)]
      unfold RegionsRead.after
      rw [if_pos hmagic]
      refine ⟨rfl, ?_⟩
      cases regs with
      | nil => rfl
      | cons reg' regs =>
        rw [List.getLast?_cons_cons]
        obtain ⟨x, hx⟩ := isSome_iff_exists.mp
          (List.getLast?_isSome.mpr (cons_ne_nil reg' regs))
        rw [hx]
        rfl

/-- No relocation that is still to be read is in front of the first one. -/
def RelocsAhead (ndz : NdzFile) (relocs : List BlockReloc) : Prop :=
  ndz.reloclo = NDZ_HIADDR ∨ ∀ r ∈ relocs, ndz.reloclo ≤ r.sector

theorem relocBounds_spec {relocs rest : List BlockReloc} {lo : Nat} (hi : Nat)
    (hasc : (relocs ++ rest).Pairwise fun r r' => r.sector ≤ r'.sector)
    (hlo : lo = NDZ_HIADDR ∨ ∀ r ∈ relocs ++ rest, lo ≤ r.sector) :
    ∃ lo' hi', relocBounds relocs (lo, hi) = .ok (lo', hi') ∧
      (lo' = NDZ_HIADDR ∨ ∀ r ∈ rest, lo' ≤ r.sector) := by
  induction relocs generalizing lo hi with
  | nil => exact ⟨lo, hi, rfl, hlo⟩
  | cons r relocs ih =>
    obtain ⟨hfirst, hasc'⟩ := pairwise_cons.mp hasc
    -- the first relocation of the file sets the bound
    have hle : (if lo = NDZ_HIADDR then r.sector else lo) ≤ r.sector := by
      by_cases hnone : lo = NDZ_HIADDR
      · rw [if_pos hnone]
      · rw [if_neg hnone]
        exact hlo.resolve_left hnone r mem_cons_self
    have hbound : ∀ r' ∈ relocs ++ rest, (if lo = NDZ_HIADDR then r.sector else lo) ≤ r'.sector :=
      fun r' hr' => Nat.le_trans hle (hfirst r' hr')
    obtain ⟨lo', hi', hrun, hres⟩ := ih (if r.sector > hi then r.sector else hi) hasc'
      (Or.inr hbound)
    refine ⟨lo', hi', ?_, hres⟩
    unfold relocBounds
    dsimp only
    rw [decide_eq_true hle, assert_true]
    exact hrun

theorem readRelocs_spec {hdr : Blockhdr} {rest : List BlockReloc} {ndz : NdzFile}
    (hasc : (hdr.relocations ++ rest).Pairwise fun r r' => r.sector ≤ r'.sector)
    (h : RelocsAhead ndz (hdr.relocations ++ rest)) :
    ∃ ndz', readRelocs ndz hdr = .ok ndz' ∧ RelocsAhead ndz' rest := by
  unfold readRelocs
  have hrest : RelocsAhead ndz rest := h.imp_right fun hle r hr => hle r (mem_append_right _ hr)
  split
  · rename_i hsome
    unfold ndzRelocGet
    split
    · exact ⟨ndz, rfl, hrest⟩
    · have hrelocs : hdr.relocations =
          relocsAt hdr.table (REGIONWORDS * hdr.regioncount) hdr.reloccount := if_neg hsome.1
      rw [hrelocs] at hasc h
      obtain ⟨lo', hi', hbounds, hres⟩ := relocBounds_spec ndz.relochi hasc h
      simp only [hbounds, bind, Except.bind]
      exact ⟨_, rfl, hres⟩
  · exact ⟨ndz, rfl, hrest⟩

/-- What has been read after some chunks. -/
structure ReadSoFar (done : List ChunkImage) (rest : List BlockReloc) (s : RangesRead) : Prop where
  filling : Filling s.map (fileRanges 0 done)
  chunkmap : s.chunkmap = done.map fun c => c.hdr.bounds
  entries : done.length ≤ s.chunkmapentries
  relocs : RelocsAhead s.ndz rest

theorem readHeader_spec {done : List ChunkImage} {c : ChunkImage} {rest : List BlockReloc}
    {s : RangesRead} (h : ReadSoFar done (c.hdr.relocations ++ rest) s)
    (hmagic : COMPRESSED_V1 ≤ c.hdr.magic ∧ c.hdr.magic ≤ COMPRESSED_V4)
    (hasc : Ascending c.hdr.regions) (hsect : ∀ reg ∈ c.hdr.regions, reg.stop ≤ 2 ^ 32)
    (hbehind : ∀ reg ∈ c.hdr.regions, ∀ r ∈ fileRanges 0 done, r.last < reg.start)
    (hrelocs : (c.hdr.relocations ++ rest).Pairwise fun r r' => r.sector ≤ r'.sector) :
    ∃ s', readHeader c.hdr done.length s = .ok s' ∧ ReadSoFar (done ++ [c]) rest s' := by
  obtain ⟨ndz', hget, hahead⟩ := readRelocs_spec hrelocs h.relocs
  obtain ⟨entries', hentries, hle⟩ : ∃ entries',
      growChunkmap s.chunkmapentries done.length = .ok entries' ∧ done.length + 1 ≤ entries' := by
    unfold growChunkmap
    by_cases hgrow : s.chunkmapentries ≤ done.length
    · rw [if_pos hgrow, decide_eq_true (Nat.le_antisymm h.entries hgrow)]
      exact ⟨_, rfl, le_rfl⟩
    · rw [if_neg hgrow]
      exact ⟨_, rfl, Nat.lt_of_not_le hgrow⟩
  -- the variables before the regions are read
  generalize hstart : (if c.hdr.magic ≠ COMPRESSED_V1 then
      { map := s.map
        first := if done.length = 0 then c.hdr.firstsect else s.first
        last := subU32 c.hdr.lastsect 1
        clo := c.hdr.firstsect
        chi := subU32 c.hdr.lastsect 1 }
    else
      { map := s.map, first := s.first, last := s.last, clo := 0, chi := 0 } : RegionsRead) = r
  have hmap : r.map = s.map := by
    rw [← hstart]
    split <;> rfl
  obtain ⟨r', hadd, hfill, hv2, hv1⟩ := addRegions_spec c.hdr done.length hasc hsect 0
    (hmap.symm ▸ h.filling) hbehind
  have hbounds : (⟨r'.clo, r'.chi⟩ : NdzBounds) = c.hdr.bounds := by
    unfold Blockhdr.bounds
    by_cases hv : c.hdr.magic = COMPRESSED_V1
    · rw [if_neg (not_not_intro hv)] at hstart
      obtain ⟨hclo, hchi⟩ := hv1 hv
      rw [if_pos hv, hclo, hchi, if_pos rfl, ← hstart]
    · rw [if_pos hv] at hstart
      obtain ⟨hclo, hchi⟩ := hv2 hv
      rw [if_neg hv, hclo, hchi, ← hstart]
  refine ⟨{ map := r'.map, chunkmap := s.chunkmap ++ [⟨r'.clo, r'.chi⟩]
            chunkmapentries := entries', first := r'.first, last := r'.last, ndz := ndz' }, ?_, ?_⟩
  · unfold readHeader
    rw [if_neg (by omega), hstart]
    simp only [hadd, hentries, hget, bind, Except.bind, pure, Except.pure]
  · refine ⟨?_, ?_, ?_, hahead⟩
    · have hone : fileRanges done.length [c] = chunkRanges done.length c.hdr.regions :=
        append_nil _
      rw [fileRanges_append, Nat.zero_add, hone]
      exact hfill
    · rw [map_append, h.chunkmap, hbounds]
      rfl
    · rw [length_append]
      exact hle

section WellFormed

variable {image : NdzImage} {inflate : List Byte → Option (List Byte)} {disk : Nat → Byte}

theorem NdzImage.WellFormed.behind (hwf : image.WellFormed inflate disk)
    {done chunks : List ChunkImage} {c : ChunkImage} (hsplit : image.chunks = done ++ c :: chunks) :
    ∀ reg ∈ c.hdr.regions, ∀ r ∈ fileRanges 0 done, r.last < reg.start := by
  intro reg hreg r hr
  obtain ⟨pre, c', post, rfl, hmem⟩ := mem_fileRanges.mp hr
  obtain ⟨reg', hreg', rfl⟩ := mem_chunkRanges.mp hmem
  have hasc := hwf.regions
  rw [hsplit, flatMap_append] at hasc
  have hin : reg' ∈ (pre ++ c' :: post).flatMap fun c => c.hdr.regions := mem_flatMap.mpr ⟨c', by simp, hreg'⟩
  have hpos := hasc.nonempty reg' (mem_append_left _ hin)
  have hle := (pairwise_append.mp hasc.ordered).2.2 reg' hin reg
    (mem_flatMap.mpr ⟨c, mem_cons_self, hreg⟩)
  have hstop : 0 < reg'.stop := Nat.lt_of_lt_of_le hpos (Nat.le_add_left _ _)
  dsimp only
  omega

theorem readHeaders_spec (hwf : image.WellFormed inflate disk) {done chunks : List ChunkImage}
    (hsplit : image.chunks = done ++ chunks) {s : RangesRead}
    (h : ReadSoFar done (chunks.flatMap fun c => c.hdr.relocations) s) :
    ∃ s', readHeaders done.length chunks s = .ok s' ∧ ReadSoFar image.chunks [] s' := by
  induction chunks generalizing done s with
  | nil =>
    rw [append_nil] at hsplit
    rw [hsplit]
    exact ⟨s, rfl, h⟩
  | cons c chunks ih =>
    have hmem : c ∈ image.chunks := by simp [hsplit]
    have hasc : Ascending c.hdr.regions := by
      have hall := hwf.regions
      rw [hsplit, flatMap_append, flatMap_cons] at hall
      refine ⟨fun e he => hall.nonempty e (by simp [he]), ?_⟩
      exact (pairwise_append.mp (pairwise_append.mp hall.ordered).2.1).1
    have hrelocs := hwf.relocs
    rw [hsplit, flatMap_append, flatMap_cons] at hrelocs
    obtain ⟨s₁, hread, hsofar⟩ := readHeader_spec h (hwf.magic c hmem) hasc (hwf.sectors c hmem)
      (hwf.behind hsplit) (pairwise_append.mp hrelocs).2.1
    have hsplit' : image.chunks = (done ++ [c]) ++ chunks := by rw [hsplit]; simp
    obtain ⟨s', hrest, hres⟩ := ih hsplit' hsofar
    refine ⟨s', ?_, hres⟩
    rw [length_append] at hrest
    unfold readHeaders
    rw [hread]
    exact hrest

theorem fileRanges_data {n : Nat} {chunks : List ChunkImage} {r : NdzRange Nat}
    (h : r ∈ fileRanges n chunks) : ∃ c, r.data = some (c + 1) ∧ n ≤ c ∧ c < n + chunks.length := by
  obtain ⟨pre, c, post, rfl, hmem⟩ := mem_fileRanges.mp h
  obtain ⟨reg, -, rfl⟩ := mem_chunkRanges.mp hmem
  refine ⟨n + pre.length, rfl, Nat.le_add_right _ _, ?_⟩
  rw [length_append, length_cons]
  omega

theorem ordered_fileRanges (n : Nat) (chunks : List ChunkImage) :
    (fileRanges n chunks).Pairwise fun r r' => ∀ c c', r.data = some c → r'.data = some c' →
      c ≤ c' := by
  induction chunks generalizing n with
  | nil => exact List.Pairwise.nil
  | cons chunk chunks ih =>
    rw [fileRanges, pairwise_append]
    have hdata : ∀ r ∈ chunkRanges n chunk.hdr.regions, r.data = some (n + 1) := by
      intro r hr
      obtain ⟨reg, -, rfl⟩ := mem_chunkRanges.mp hr
      rfl
    refine ⟨?_, ih (n + 1), ?_⟩
    · apply pairwise_of_forall_mem_list
      intro r hr r' hr' c c' hc hc'
      rw [hdata r hr] at hc
      rw [hdata r' hr'] at hc'
      exact (some.inj (hc.symm.trans hc')).le
    · intro r hr r' hr' c c' hc hc'
      obtain ⟨c₁, hc₁, hle, -⟩ := fileRanges_data hr'
      rw [hdata r hr] at hc
      rw [hc₁] at hc'
      have := some.inj hc
      have := some.inj hc'
      omega

theorem chunkAhead_fileRanges (disk : Nat → Byte) (c : Nat) (regions : List Range)
    (chunks : List ChunkImage) (hpos : ∀ reg ∈ regions, 0 < reg.size) :
    chunkAhead disk c (chunkRanges c regions ++ fileRanges (c + 1) chunks) =
      regions.flatMap fun reg => readSectors disk reg.start reg.size := by
  induction regions with
  | nil =>
    -- what follows is in later chunks
    unfold chunkAhead chunkRanges
    rw [map_nil, nil_append]
    cases hrest : fileRanges (c + 1) chunks with
    | nil => rfl
    | cons r rest =>
      have hmem : r ∈ fileRanges (c + 1) chunks := by rw [hrest]; exact mem_cons_self
      obtain ⟨c', hdata, hle, -⟩ := fileRanges_data hmem
      rw [takeWhile_cons_of_neg]
      · rfl
      · rw [hdata]
        simp only [Option.some.injEq, decide_eq_true_eq]
        omega
  | cons reg regions ih =>
    have hreg := hpos reg mem_cons_self
    have hsize : reg.stop - 1 + 1 - reg.start = reg.size := by
      unfold stop
      omega
    have hih := ih fun reg' hreg' => hpos reg' (mem_cons_of_mem _ hreg')
    unfold chunkRanges at hih ⊢
    rw [map_cons, cons_append, chunkAhead_cons rfl, hih, flatMap_cons]
    dsimp only
    rw [hsize]

theorem first_of_chunk {chunks : List ChunkImage} {pre post : List (NdzRange Nat)}
    {r : NdzRange Nat} {c : Nat} (hsplit : fileRanges 0 chunks = pre ++ r :: post)
    (hdata : r.data = some (c + 1)) (hfirst : ∀ p ∈ pre, p.data ≠ some (c + 1)) :
    ∃ P C Q reg regs, chunks = P ++ C :: Q ∧ P.length = c ∧ C.hdr.regions = reg :: regs ∧
      pre = fileRanges 0 P ∧
      r :: post = chunkRanges c C.hdr.regions ++ fileRanges (c + 1) Q ∧
      r = ⟨reg.start, reg.stop - 1, some (c + 1)⟩ := by
  have hmem : r ∈ fileRanges 0 chunks := by simp [hsplit]
  obtain ⟨P, C, Q, rfl, hin⟩ := mem_fileRanges.mp hmem
  obtain ⟨reg', hreg', hr⟩ := mem_chunkRanges.mp hin
  rw [Nat.zero_add] at hr hin
  obtain rfl : P.length = c := by
    rw [hr] at hdata
    exact Nat.succ_injective (some.inj hdata)
  obtain ⟨reg, regs, hregs⟩ := exists_cons_of_ne_nil (ne_nil_of_mem hreg')
  have hparts : fileRanges 0 (P ++ C :: Q) =
      fileRanges 0 P ++ (chunkRanges P.length C.hdr.regions ++ fileRanges (P.length + 1) Q) := by
    rw [fileRanges_append, Nat.zero_add]
    rfl
  have hhead : fileRanges 0 (P ++ C :: Q) = fileRanges 0 P ++
      (⟨reg.start, reg.stop - 1, some (P.length + 1)⟩ :: (chunkRanges P.length regs ++
        fileRanges (P.length + 1) Q)) := by
    rw [hparts, hregs]
    rfl
  have heq := hsplit.symm.trans hhead
  -- the ranges in front are those of earlier chunks
  have hlen : pre.length = (fileRanges 0 P).length := by
    obtain hlt | hlen | hgt := Nat.lt_trichotomy pre.length (fileRanges 0 P).length
    · obtain ⟨mid, hmid, -⟩ := split_of_lt heq hlt
      have hearly : r ∈ fileRanges 0 P := by simp [hmid]
      obtain ⟨c', hc', -, hlt'⟩ := fileRanges_data hearly
      rw [hdata] at hc'
      have := some.inj hc'
      omega
    · exact hlen
    · obtain ⟨mid, hmid, -⟩ := split_of_lt heq.symm hgt
      have hin₀ : (⟨reg.start, reg.stop - 1, some (P.length + 1)⟩ : NdzRange Nat) ∈ pre := by
        simp [hmid]
      exact absurd rfl (hfirst _ hin₀)
  obtain ⟨hpre, htail⟩ := append_inj heq hlen
  refine ⟨P, C, Q, reg, regs, rfl, rfl, hregs, hpre, ?_, (List.cons.inj htail).1⟩
  rw [htail, hregs]
  rfl

/-- The sectors that a chunk describes find its first range. -/
theorem NdzImage.WellFormed.bounds (hwf : image.WellFormed inflate disk) {P Q : List ChunkImage}
    {C : ChunkImage} (hsplit : image.chunks = P ++ C :: Q) {reg : Range} {regs : List Range}
    (hregs : C.hdr.regions = reg :: regs) :
    (∀ p ∈ fileRanges 0 P, p.last < C.hdr.bounds.losect) ∧
      C.hdr.bounds.losect ≤ reg.stop - 1 ∧ reg.start ≤ C.hdr.bounds.hisect := by
  have hmem : C ∈ image.chunks := by simp [hsplit]
  have hasc := hwf.regions
  have hreg : reg ∈ C.hdr.regions := by simp [hregs]
  have hpos : ∀ reg' ∈ C.hdr.regions, reg'.start ≤ reg'.stop - 1 ∧ 0 < reg'.stop := by
    intro reg' hreg'
    have := hasc.nonempty reg' (mem_flatMap.mpr ⟨C, hmem, hreg'⟩)
    unfold stop
    omega
  unfold Blockhdr.bounds
  by_cases hv : C.hdr.magic = COMPRESSED_V1
  · rw [if_pos hv, hregs]
    refine ⟨?_, (hpos reg hreg).1, ?_⟩
    · intro p hp
      exact hwf.behind hsplit reg hreg p hp
    · -- the last region does not end before the first one
      obtain ⟨regl, hlast⟩ := isSome_iff_exists.mp
        (List.getLast?_isSome.mpr (cons_ne_nil reg regs))
      rw [hlast]
      have hmeml := mem_of_getLast? hlast
      have hstart : reg.start ≤ regl.start := by
        rcases mem_cons.mp hmeml with rfl | hmeml
        · exact le_rfl
        · rw [hsplit, flatMap_append, flatMap_cons, hregs] at hasc
          have hordered := (pairwise_append.mp (pairwise_append.mp hasc.ordered).2.1).1
          have hle := (pairwise_cons.mp hordered).1 regl hmeml
          exact Nat.le_trans (Nat.le_add_right _ _) hle
      exact Nat.le_trans hstart (hpos regl (hregs ▸ hmeml)).1
  · rw [if_neg hv]
    obtain ⟨hlast, hdescribes⟩ := hwf.describes C hmem hv
    obtain ⟨hlo, hhi⟩ := hdescribes reg hreg
    obtain ⟨hle, hstop⟩ := hpos reg hreg
    refine ⟨?_, Nat.le_trans hlo hle, ?_⟩
    · intro p hp
      obtain ⟨pre, c, post, rfl, hin⟩ := mem_fileRanges.mp hp
      obtain ⟨reg', hreg', rfl⟩ := mem_chunkRanges.mp hin
      have hapart := hwf.apart _ C Q hsplit hv c (by simp) reg' hreg'
      have hpos' := hasc.nonempty reg' (mem_flatMap.mpr ⟨c, by simp [hsplit], hreg'⟩)
      have : 0 < reg'.stop := Nat.lt_of_lt_of_le hpos' (Nat.le_add_left _ _)
      dsimp only
      omega
    · have hsub : subU32 C.hdr.lastsect 1 = C.hdr.lastsect - 1 :=
        subU32_of_le (by omega) (by omega)
      rw [hsub]
      dsimp only
      omega

def NdzImage.inflated (image : NdzImage) (inflate : List Byte → Option (List Byte)) (c : Nat) :
    Option (List Byte) :=
  image.chunks[c]?.bind fun chunk => inflate chunk.data

theorem ReadSoFar.holds (hwf : image.WellFormed inflate disk) {rest : List BlockReloc}
    {s : RangesRead} (h : ReadSoFar image.chunks rest s) : (s.imageFile (image.inflated inflate)).Holds disk := by
  have hranges : (s.imageFile (image.inflated inflate)).rangemap.ranges =
      fileRanges 0 image.chunks := h.filling.ranges
  constructor
  · rw [hranges]
    exact sorted_fileRanges hwf.regions
  · intro r hr
    rw [hranges] at hr
    obtain ⟨pre, c, post, hsplit, hmem⟩ := mem_fileRanges.mp hr
    obtain ⟨reg, hreg, rfl⟩ := mem_chunkRanges.mp hmem
    have hc : c ∈ image.chunks := by simp [hsplit]
    have hstop := hwf.sectors c hc reg hreg
    have hpos := hwf.regions.nonempty reg (mem_flatMap.mpr ⟨c, hc, hreg⟩)
    have : 0 < reg.stop := Nat.lt_of_lt_of_le hpos (Nat.le_add_left _ _)
    dsimp only
    omega
  · intro r hr
    rw [hranges] at hr
    obtain ⟨c, hc, -, -⟩ := fileRanges_data hr
    exact ⟨c, hc⟩
  · rw [hranges]
    exact ordered_fileRanges 0 image.chunks
  · intro pre r r' post hsplit hstart c c' hc hc'
    rw [hranges] at hsplit
    have hr : r ∈ fileRanges 0 image.chunks := by simp [hsplit]
    have hr' : r' ∈ fileRanges 0 image.chunks := by simp [hsplit]
    obtain ⟨P, C, Q, hchunks, hmem⟩ := mem_fileRanges.mp hr
    obtain ⟨P', C', Q', hchunks', hmem'⟩ := mem_fileRanges.mp hr'
    obtain ⟨reg, hreg, rfl⟩ := mem_chunkRanges.mp hmem
    obtain ⟨reg', hreg', rfl⟩ := mem_chunkRanges.mp hmem'
    obtain rfl : 0 + P.length + 1 = c := some.inj hc
    obtain rfl : 0 + P'.length + 1 = c' := some.inj hc'
    by_contra hgt
    -- a chunk between the two would have to be there
    obtain ⟨mid, hmid, hrest⟩ := split_of_lt (hchunks.symm.trans hchunks')
      (show P.length < P'.length by omega)
    have hall : image.chunks = P ++ C :: (mid ++ C' :: Q') := by rw [hchunks', hmid]; simp
    have hpos := hwf.regions.nonempty reg
      (mem_flatMap.mpr ⟨C, by simp [hchunks], hreg⟩)
    have hstop : 0 < reg.stop := Nat.lt_of_lt_of_le hpos (Nat.le_add_left _ _)
    have hnil := hwf.adjacent P C mid C' Q' hall reg hreg reg' hreg' (by dsimp only at hstart; omega)
    rw [hnil] at hmid
    have hlen := congrArg List.length hmid
    rw [length_append] at hlen
    simp only [length_cons, length_nil] at hlen
    omega
  · intro pre r post c hsplit hdata hfirst
    rw [hranges] at hsplit
    obtain ⟨P, C, Q, reg, regs, hchunks, rfl, hregs, rfl, hpost, hr⟩ := first_of_chunk hsplit hdata hfirst
    have hC : C ∈ image.chunks := by simp [hchunks]
    have hget : image.chunks[P.length]? = some C := by
      rw [hchunks, List.getElem?_append_right le_rfl, Nat.sub_self]
      rfl
    refine ⟨?_, C.hdr.bounds, ?_, ?_⟩
    · have hpos : ∀ reg ∈ C.hdr.regions, 0 < reg.size := fun reg hreg =>
        hwf.regions.nonempty reg (mem_flatMap.mpr ⟨C, hC, hreg⟩)
      rw [hpost, chunkAhead_fileRanges disk _ _ Q hpos]
      change image.chunks[P.length]?.bind (fun chunk => inflate chunk.data) = _
      rw [hget, bind_some, hwf.data C hC]
    · change s.chunkmap[P.length]? = _
      rw [h.chunkmap, List.getElem?_map, hget]
      rfl
    · obtain ⟨hbefore, hlo, hhi⟩ := hwf.bounds hchunks hregs
      rw [hr]
      exact ⟨hbefore, hlo, hhi⟩

/-- **`ndz_readranges` reads a well-formed file.** -/
theorem ndzReadranges_spec (hwf : image.WellFormed inflate disk) {ndz : NdzFile}
    (hnone : ndz.reloclo = NDZ_HIADDR) :
    ∃ s, ndzReadranges image ndz = .ok s ∧ s.map.ranges = fileRanges 0 image.chunks ∧
      (s.imageFile (image.inflated inflate)).Ready disk := by
  have hinit : ReadSoFar [] (image.chunks.flatMap fun c => c.hdr.relocations)
      { map := ndzRangemapInit NDZ_LOADDR (NDZ_HIADDR - NDZ_LOADDR)
        chunkmap := []
        chunkmapentries := ((image.st_size.getD 0) + CHUNKSIZE - 1) / CHUNKSIZE
        first := 0, last := 0, ndz := ndz } := by
    refine ⟨⟨inv_ndzRangemapInit (by decide), rfl, rfl, rfl⟩, rfl, Nat.zero_le _, Or.inl hnone⟩
  obtain ⟨s, hread, hsofar⟩ := readHeaders_spec hwf rfl hinit
  refine ⟨s, hread, hsofar.filling.ranges, hsofar.holds hwf, ?_⟩
  intro chunk hchunk
  cases hchunk

end WellFormed

end Emulab.Imagezip
