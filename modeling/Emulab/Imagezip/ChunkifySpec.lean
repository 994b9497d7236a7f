import Emulab.Imagezip.Chunkify

/-! # What is in a delta image

  The chunks of a delta image tile the addresses, their regions are the delta
  map, their data are those of the second image, and the signature says in
  which chunks each hash block is.
-/

namespace Emulab.Imagezip

open MachineInt IntervalMap Extent List

/-! ## Section 1: Headers -/

theorem setRegion_of_lt {hdr : Blockhdr} {i w : Nat} {region : Range} (h : w < REGIONWORDS * i) :
    (hdr.setRegion i region).table w = hdr.table w := by
  unfold Blockhdr.setRegion
  simp only
  rw [Function.update_of_ne (by omega), Function.update_of_ne (by omega)]

theorem regionAt_setRegion (hdr : Blockhdr) (i : Nat) (region : Range) :
    regionAt (hdr.setRegion i region).table i = region := by
  simp [regionAt, Blockhdr.setRegion, Function.update]

theorem setRegions_spec (hdr : Blockhdr) (i : Nat) (regions : List Range) :
    ∃ table, setRegions hdr i regions = { hdr with table := table } ∧
      (∀ w, w < REGIONWORDS * i → table w = hdr.table w) ∧
      ∀ k (hk : k < regions.length), regionAt table (i + k) = regions[k] := by
  induction regions generalizing hdr i with
  | nil => exact ⟨hdr.table, rfl, fun _ _ => rfl, fun k hk => by simp at hk⟩
  | cons region regions ih =>
    have hi : REGIONWORDS * i = 2 * i := rfl
    have hi' : REGIONWORDS * (i + 1) = 2 * (i + 1) := rfl
    obtain ⟨table, hset, hbelow, hregions⟩ := ih (hdr.setRegion i region) (i + 1)
    refine ⟨table, hset, ?_, ?_⟩
    · intro w hw
      rw [hbelow w (by omega), setRegion_of_lt hw]
    · intro k hk
      cases k with
      | zero =>
        have h := regionAt_setRegion hdr i region
        unfold regionAt at h ⊢
        rw [Nat.add_zero, hbelow _ (by omega), hbelow _ (by omega)]
        exact h
      | succ k =>
        have hk' : k < regions.length := by simpa using hk
        have h := hregions k hk'
        rwa [show i + 1 + k = i + (k + 1) by omega] at h

def finishedHeader (chunkno : Nat) (chunk : Chunk) (table : Nat → Nat) : Blockhdr :=
  { initnewchunk chunkno with
    regioncount := chunk.regions.length
    firstsect := chunk.firstsect
    lastsect := chunk.lastsect
    table := table }

theorem finishHeader_spec {ndz : NdzFile} (hok : ndz.RelocsOk) (chunkno : Nat) (chunk : Chunk) :
    ∃ hdr, finishHeader ndz chunkno chunk = .ok hdr ∧ hdr.regions = chunk.regions ∧
      hdr.firstsect = chunk.firstsect ∧ hdr.lastsect = chunk.lastsect ∧
      hdr.blockindex = chunkno ∧ hdr.magic = COMPRESSED_V3 := by
  obtain ⟨table, hset, -, hregions⟩ := setRegions_spec (initnewchunk chunkno) 0 chunk.regions
  -- the relocations are behind the regions
  have hread : ∀ table', (∀ w, w < REGIONWORDS * chunk.regions.length → table' w = table w) →
      (List.range chunk.regions.length).map (regionAt table') = chunk.regions := by
    intro table' htable
    apply ext_getElem
    · simp
    · intro k hk hk'
      have h := hregions k hk'
      have hk₂ : REGIONWORDS * k = 2 * k := rfl
      have hlen : REGIONWORDS * chunk.regions.length = 2 * chunk.regions.length := rfl
      rw [Nat.zero_add] at h
      rw [getElem_map, getElem_range, ← h]
      unfold regionAt
      rw [htable _ (by omega), htable _ (by omega)]
  unfold finishHeader
  rw [hset]
  by_cases hentries : ndz.relocentries > 0
  · obtain ⟨table', hput, hbelow, -⟩ := ndzRelocPut_spec hok (finishedHeader chunkno chunk table)
      (REGIONWORDS * chunk.regions.length)
    refine ⟨finishedHeader chunkno chunk table', ?_, hread table' hbelow, rfl, rfl, rfl, rfl⟩
    simp only
    rw [if_pos hentries]
    exact hput
  · refine ⟨finishedHeader chunkno chunk table, ?_, hread table fun _ _ => rfl, rfl, rfl, rfl, rfl⟩
    simp only
    rw [if_neg hentries]
    rfl

def relocsFrom (relocs : List BlockReloc) (addr : Nat) : Nat :=
  (relocs.filter fun r => addr ≤ r.sector).length

/-- With a size of zero the relocations to the end are counted. -/
theorem ndzRelocInrange_zero {ndz : NdzFile} (hok : ndz.RelocsOk) (addr : Nat) :
    ndzRelocInrange ndz addr 0 = .ok (relocsFrom ndz.relocs addr) := by
  unfold ndzRelocInrange relocsFrom
  simp only [if_true]
  by_cases hskip : ndz.relocentries = 0 ∨ addr > ndz.relochi ∨
      (if ndz.relochi > addr then ndz.relochi else addr) < ndz.reloclo
  · have hnone : ndz.relocs.filter (fun r => addr ≤ r.sector) = [] := by
      rw [filter_eq_nil_iff]
      intro r hr
      have := hok.bounds r hr
      have := length_pos_of_mem hr
      unfold NdzFile.relocentries at hskip
      simp only [decide_eq_true_eq]
      split at hskip
      · omega
      · omega
    rw [if_pos hskip, hnone]
    rfl
  · rw [if_neg hskip, relocInrangeLoop_eq hok.sorted hok.fits, Nat.zero_add]
    congr 2
    apply filter_congr
    intro r hr
    have := (hok.bounds r hr).2
    congr 1
    split
    · simp only [eq_iff_iff]
      omega
    · simp only [eq_iff_iff]
      omega

/-! ## Section 2: What is written -/

def dataOf (disk : Nat → Byte) (regions : List Range) : List Byte :=
  regions.flatMap fun r => readSectors disk r.start r.size

@[simp] theorem dataOf_append (disk : Nat → Byte) (l l' : List Range) :
    dataOf disk (l ++ l') = dataOf disk l ++ dataOf disk l' := flatMap_append

@[simp] theorem dataOf_singleton (disk : Nat → Byte) (r : Range) :
    dataOf disk [r] = readSectors disk r.start r.size := by
  simp [dataOf]

theorem length_dataOf_le {disk : Nat → Byte} {regions : List Range} {lo hi : Nat}
    (hapart : regions.Pairwise fun r r' => r.stop < r'.start) (hle : lo ≤ hi)
    (hlo : ∀ r ∈ regions, lo ≤ r.start) (hhi : ∀ r ∈ regions, r.stop ≤ hi) :
    (dataOf disk regions).length ≤ sectobytes (hi - lo) := by
  induction regions generalizing lo with
  | nil => exact Nat.zero_le _
  | cons r regions ih =>
    obtain ⟨hr, hrest⟩ := pairwise_cons.mp hapart
    have hstop : r.stop = r.start + r.size := rfl
    have hrlo := hlo r mem_cons_self
    have hrhi := hhi r mem_cons_self
    have h := ih hrest hrhi (fun r' hr' => (hr r' hr').le)
      fun r' hr' => hhi r' (mem_cons_of_mem _ hr')
    have hlen : (dataOf disk (r :: regions)).length = sectobytes r.size + (dataOf disk regions).length := by
      simp [dataOf]
    have hsum : sectobytes r.size + sectobytes (hi - r.stop) ≤ sectobytes (hi - lo) := by
      rw [← sectobytes_add]
      exact sectobytes_le (by omega)
    omega

variable (env : ChunkifyEnv) (disk : Nat → Byte)

/-- A chunk of the delta image: its regions are ascending, disjoint and within its bounds,
    its data are theirs, and its table does not overflow the header page. -/
structure ChunkOk (image : ChunkImage) : Prop where
  nonempty : image.hdr.regions ≠ []
  regions : Separated image.hdr.regions
  within : ∀ r ∈ image.hdr.regions, image.hdr.firstsect ≤ r.start ∧ r.stop ≤ image.hdr.lastsect
  data : env.z.inflate image.data = some (dataOf disk image.hdr.regions)
  table : SIZEOF_BLOCKHDR_V2 + SIZEOF_REGION * image.hdr.regions.length + SIZEOF_BLOCKRELOC *
    (relocsBetween env.ndz.relocs image.hdr.firstsect image.hdr.lastsect).length ≤
    DEFAULTREGIONSIZE

/-- The chunks of the file tile the addresses up to sector `next`. -/
structure ChunkFile (file : List ChunkImage) (next : Nat) : Prop where
  chunks : ∀ image ∈ file, ChunkOk env disk image
  number : ∀ (i : Nat) (image : ChunkImage), file[i]? = some image → image.hdr.blockindex = i
  first : ∀ image : ChunkImage, file.head? = some image → image.hdr.firstsect = 0
  tile : file.IsChain fun (a b : ChunkImage) => b.hdr.firstsect = a.hdr.lastsect
  last : ∀ image : ChunkImage, file.getLast? = some image → image.hdr.lastsect = next

/-- The invariant of the open chunk: everything in front of sector `pos` has been appended. -/
structure Writing (file : List ChunkImage) (c : ChunkState env.z) (pos : Nat) : Prop where
  written : ChunkFile env disk file c.firstsect
  chunkno : c.chunkno = file.length
  holds : c.chunkobj.Holds (dataOf disk (c.regions ++ [c.curregion]))
  nonempty : ∀ r ∈ c.regions, 0 < r.size
  apart : (c.regions ++ [c.curregion]).Pairwise fun r r' => r.stop < r'.start
  bounds : ∀ r ∈ c.regions ++ [c.curregion], c.firstsect ≤ r.start ∧ r.stop ≤ pos
  /-- Only a new chunk has an empty region, which begins where it goes on. -/
  fresh : c.curregion.size = 0 → c.regions = [] ∧ c.curregion.start = pos
  header : c.headerleft + SIZEOF_REGION * c.regions.length +
    SIZEOF_BLOCKRELOC * relocsFrom env.ndz.relocs c.firstsect = DEFAULTREGIONSIZE - SIZEOF_BLOCKHDR
  /-- There are far fewer chunks than sectors. -/
  few : 3 * c.chunkno ≤ c.firstsect
  /-- The header of the first chunk says that it begins with sector 0. -/
  low : c.chunkno = 0 → ∀ r ∈ env.ndz.relocs, c.firstsect ≤ r.sector

/-- Sector `x` is in chunk number `i` of a file. -/
def InChunk (file : List ChunkImage) (i x : Nat) : Prop :=
  ∃ image, file[i]? = some image ∧ Covered image.hdr.regions x

/-- Sector `x` is in chunk number `i` of the file, or in the open chunk. -/
def Placed (file : List ChunkImage) {z : Zlib} (c : ChunkState z) (i x : Nat) : Prop :=
  InChunk file i x ∨ i = c.chunkno ∧ Covered (c.regions ++ [c.curregion]) x

section Steps

variable {env : ChunkifyEnv} {disk : Nat → Byte} {file : List ChunkImage} {c : ChunkState env.z} {pos : Nat}

/-- Sectors may be left out once something has been appended. -/
theorem Writing.skip (h : Writing env disk file c pos) (hpos : 0 < c.curregion.size) {pos' : Nat}
    (hle : pos ≤ pos') : Writing env disk file c pos' :=
  { h with
    bounds := fun r hr => ⟨(h.bounds r hr).1, (h.bounds r hr).2.trans hle⟩
    fresh := fun hzero => by omega }

theorem startChunk_spec (hok : env.ndz.RelocsOk) (hrelocs : env.ndz.relocentries ≤ 234)
    (hfile : ChunkFile env disk file pos) (hfew : 3 * file.length ≤ pos)
    (hlow : file.length = 0 → ∀ r ∈ env.ndz.relocs, pos ≤ r.sector) :
    ∃ c', startChunk env file.length pos = .ok c' ∧ Writing env disk file c' pos ∧
      c'.firstsect = pos ∧ c'.curregion = ⟨pos, 0⟩ ∧ c'.regions = [] ∧
      ndzChunkLeft c'.chunkobj = CBUFSIZE - CHUNKSLOP ∧ SIZEOF_REGION ≤ c'.headerleft := by
  have hfrom : relocsFrom env.ndz.relocs pos ≤ 234 := (length_filter_le _ _).trans hrelocs
  have hcount : countRelocs env pos = .ok (relocsFrom env.ndz.relocs pos) := by
    unfold countRelocs
    split
    · exact ndzRelocInrange_zero hok pos
    · rename_i hzero
      have hnil : env.ndz.relocs = [] := length_eq_zero_iff.mp (Nat.eq_zero_of_not_pos hzero)
      rw [hnil]
      rfl
  have hsub : subU32 (DEFAULTREGIONSIZE - SIZEOF_BLOCKHDR) (relocsFrom env.ndz.relocs pos * SIZEOF_BLOCKRELOC) =
      3752 - relocsFrom env.ndz.relocs pos * 16 :=
    subU32_of_le (show _ * 16 ≤ 3752 by omega) (by decide)
  refine ⟨newChunk env.z file.length pos (3752 - relocsFrom env.ndz.relocs pos * 16), ?_, ?_, rfl,
    rfl, rfl, left_create _ _, ?_⟩
  · unfold startChunk
    rw [hcount, ← hsub]
    rfl
  · exact {
      written := hfile
      chunkno := rfl
      holds := by
        simp only [newChunk, nil_append, dataOf_singleton, readSectors_zero]
        exact holds_create _ _
      nonempty := fun r hr => by simp [newChunk] at hr
      apart := pairwise_singleton _ _
      bounds := by
        intro r hr
        obtain rfl : r = ⟨pos, 0⟩ := by simpa [newChunk] using hr
        exact ⟨le_rfl, le_rfl⟩
      fresh := fun _ => ⟨rfl, rfl⟩
      header := by
        show 3752 - relocsFrom env.ndz.relocs pos * 16 + 8 * 0 + 16 * relocsFrom env.ndz.relocs pos = 3752
        omega
      few := hfew
      low := hlow }
  · show 8 ≤ 3752 - relocsFrom env.ndz.relocs pos * 16
    omega

theorem appendRegion_spec (h : Writing env disk file c pos) {chunkobj : NdzChunk env.z} {wsize : Nat}
    (hholds : chunkobj.Holds (dataOf disk (c.regions ++ [c.curregion]) ++
      readSectors disk pos wsize)) (hpos : 0 < wsize) (hfit : pos + wsize < 2 ^ 32)
    (hheader : SIZEOF_REGION ≤ c.headerleft) {c' : ChunkState env.z}
    (hc' : appendRegion { c with chunkobj := chunkobj } pos wsize = c') :
    Writing env disk file c' (pos + wsize) ∧ c'.chunkno = c.chunkno ∧ 0 < c'.curregion.size ∧
      ∀ x, Covered (c'.regions ++ [c'.curregion]) x ↔
        Covered (c.regions ++ [c.curregion]) x ∨ pos ≤ x ∧ x < pos + wsize := by
  have hmem : c.curregion ∈ c.regions ++ [c.curregion] := by simp
  have hcur := (h.bounds _ hmem).2
  have hstop : c.curregion.stop = c.curregion.start + c.curregion.size := rfl
  have hadd : addU32 c.curregion.start c.curregion.size = c.curregion.stop := addU32_of_lt (by omega)
  obtain ⟨hregions, _, hapart⟩ := pairwise_append.mp h.apart
  have hbehind : ∀ r ∈ c.regions, r.stop < c.curregion.start := fun r hr =>
    hapart r hr _ mem_cons_self
  unfold appendRegion at hc'
  by_cases heq : c.curregion.stop = pos
  · -- the current region grows
    have hsize : addU32 c.curregion.size wsize = c.curregion.size + wsize := addU32_of_lt (by omega)
    rw [if_pos (hadd.trans heq)] at hc'
    subst hc'
    simp only [hsize]
    refine ⟨?_, trivial, by omega, ?_⟩
    · exact {
        written := h.written
        chunkno := h.chunkno
        holds := by
          rw [dataOf_append, dataOf_singleton, ← heq, append_assoc] at hholds
          rw [dataOf_append, dataOf_singleton, readSectors_add]
          exact hholds
        nonempty := h.nonempty
        apart := by
          refine pairwise_append.mpr ⟨hregions, pairwise_singleton _ _, ?_⟩
          intro r hr r' hr'
          obtain rfl := mem_singleton.mp hr'
          exact hbehind r hr
        bounds := by
          intro r hr
          rcases mem_append.mp hr with hr | hr
          · have := h.bounds r (mem_append_left _ hr)
            exact ⟨this.1, by omega⟩
          · obtain rfl := mem_singleton.mp hr
            refine ⟨(h.bounds _ hmem).1, ?_⟩
            show c.curregion.start + (c.curregion.size + wsize) ≤ pos + wsize
            omega
        fresh := by
          intro hzero
          simp only at hzero
          omega
        header := h.header
        few := h.few
        low := h.low }
    · intro x
      simp only [covered_append, covered_cons, covered_nil, or_false, Extent.Has]
      have hstop' : stop ⟨c.curregion.start, c.curregion.size + wsize⟩ =
          c.curregion.start + (c.curregion.size + wsize) := rfl
      rw [hstop', or_assoc]
      apply or_congr_right
      omega
  · -- a new region
    have hlt : c.curregion.stop < pos := by omega
    have hsize : 0 < c.curregion.size := by
      by_contra hzero
      have := (h.fresh (by omega)).2
      omega
    have hsub : subU32 c.headerleft SIZEOF_REGION = c.headerleft - SIZEOF_REGION := by
      apply subU32_of_le hheader
      have := h.header
      have hconst : DEFAULTREGIONSIZE - SIZEOF_BLOCKHDR = 3752 := rfl
      omega
    rw [if_neg (by rw [hadd]; exact heq)] at hc'
    subst hc'
    simp only [hsub]
    refine ⟨?_, trivial, hpos, ?_⟩
    · exact {
        written := h.written
        chunkno := h.chunkno
        holds := by
          rw [dataOf_append _ (c.regions ++ [c.curregion]), dataOf_singleton]
          exact hholds
        nonempty := by
          intro r hr
          rcases mem_append.mp hr with hr | hr
          · exact h.nonempty r hr
          · obtain rfl := mem_singleton.mp hr
            exact hsize
        apart := by
          refine pairwise_append.mpr ⟨h.apart, pairwise_singleton _ _, ?_⟩
          intro r hr r' hr'
          obtain rfl := mem_singleton.mp hr'
          rcases mem_append.mp hr with hr | hr
          · have := hbehind r hr
            show r.stop < pos
            omega
          · obtain rfl := mem_singleton.mp hr
            exact hlt
        bounds := by
          intro r hr
          rcases mem_append.mp hr with hr | hr
          · have := h.bounds r hr
            exact ⟨this.1, by omega⟩
          · obtain rfl := mem_singleton.mp hr
            have := (h.bounds _ hmem).1
            exact ⟨show c.firstsect ≤ pos by omega, le_rfl⟩
        fresh := by
          intro hzero
          simp only at hzero
          omega
        header := by
          have := h.header
          have hregion : SIZEOF_REGION = 8 := rfl
          simp only [length_append, length_singleton, Nat.mul_add]
          omega
        few := h.few
        low := h.low }
    · intro x
      rw [covered_append (c.regions ++ [c.curregion])]
      simp [Extent.Has, stop]

/-- The open chunk takes another sector, and its header another region. -/
def Room {z : Zlib} (c : ChunkState z) : Prop :=
  SECSIZE ≤ ndzChunkLeft c.chunkobj ∧ SIZEOF_REGION ≤ c.headerleft

/-- What appending the first `wsize` sectors of a piece does. -/
structure Appended (disk : Nat → Byte) (p p' : Piece env.z) (wsize : Nat) : Prop where
  pstart : p'.pstart = p.pstart + wsize
  psize : p'.psize = p.psize - wsize
  data : p'.data = readSectors disk p'.pstart p'.psize
  file : p'.file = p.file
  spanschunk : p'.spanschunk = p.spanschunk
  writing : Writing env disk p'.file p'.cstate p'.pstart
  chunkno : p'.cstate.chunkno = p.cstate.chunkno
  curregion : 0 < p'.cstate.curregion.size
  placed : ∀ i x, Placed p'.file p'.cstate i x ↔ Placed p.file p.cstate i x ∨
    i = p.cstate.chunkno ∧ p.pstart ≤ x ∧ x < p'.pstart

variable {p : Piece env.z}

theorem appendSome_spec (hz : env.z.Lawful)
    (h : Writing env disk p.file p.cstate p.pstart) (hroom : Room p.cstate) (hpsize : 0 < p.psize)
    (hdata : p.data = readSectors disk p.pstart p.psize) (hfit : p.pstart + p.psize < 2 ^ 32) :
    ∃ p', appendSome p = .ok p' ∧ Appended disk p p' (min p.psize (ndzChunkLeft p.cstate.chunkobj / SECSIZE)) := by
  obtain ⟨hleft, hheader⟩ := hroom
  have hsect : SECSIZE = 512 := rfl
  have hpbytes : p.psize * SECSIZE = p.psize * 512 := rfl
  have hdiv : ndzChunkLeft p.cstate.chunkobj / SECSIZE = ndzChunkLeft p.cstate.chunkobj / 512 := rfl
  generalize hw : min p.psize (ndzChunkLeft p.cstate.chunkobj / SECSIZE) = wsize
  have hwsize : (if p.psize * SECSIZE > ndzChunkLeft p.cstate.chunkobj then
      ndzChunkLeft p.cstate.chunkobj / SECSIZE else p.psize) = wsize := by
    split
    · omega
    · omega
  have hwbytes : wsize * SECSIZE = wsize * 512 := rfl
  have hpos : 0 < wsize := by omega
  have hbytes : wsize * SECSIZE ≤ ndzChunkLeft p.cstate.chunkobj := by omega
  have hsplit : p.data = readSectors disk p.pstart wsize ++
      readSectors disk (p.pstart + wsize) (p.psize - wsize) := by
    rw [hdata, ← readSectors_add, show wsize + (p.psize - wsize) = p.psize by omega]
  have hlen : wsize * SECSIZE = (readSectors disk p.pstart wsize).length := (length_readSectors _ _ _).symm
  have htake : p.data.take (wsize * SECSIZE) = readSectors disk p.pstart wsize := by
    rw [hsplit, hlen, take_left]
  have hdrop : p.data.drop (wsize * SECSIZE) = readSectors disk (p.pstart + wsize) (p.psize - wsize) := by
    rw [hsplit, hlen, drop_left]
  have hmod : (readSectors disk p.pstart wsize).length % SECSIZE = 0 := by
    rw [← hlen]
    exact Nat.mul_mod_left _ _
  obtain ⟨chunkobj, happend, hholds, -⟩ := ndzChunkAppend_spec hz h.holds hmod (by omega) (by omega)
  rw [← hlen] at happend
  obtain ⟨hwriting, hchunkno, hcur, hcovered⟩ := appendRegion_spec h hholds hpos (by omega) hheader rfl
  refine ⟨{ p with
    pstart := p.pstart + wsize
    psize := p.psize - wsize
    data := readSectors disk (p.pstart + wsize) (p.psize - wsize)
    cstate := appendRegion { p.cstate with chunkobj := chunkobj } p.pstart wsize }, ?_, ?_⟩
  · unfold appendSome
    simp only [hwsize, hpos, decide_true, assert_true, bind, Except.bind, htake, happend, hdrop]
    rw [show addU32 p.pstart wsize = p.pstart + wsize from addU32_of_lt (by omega)]
    rfl
  · constructor
    · rfl
    · rfl
    · rfl
    · rfl
    · rfl
    · exact hwriting
    · exact hchunkno
    · exact hcur
    · intro i x
      unfold Placed
      rw [hchunkno, hcovered, and_or_left, or_assoc]

theorem finishChunk_spec (hz : env.z.Lawful) (hok : env.ndz.RelocsOk)
    (h : Writing env disk file c pos) (hsize : 0 < c.curregion.size) {lastsect : Nat} (hle : pos ≤ lastsect) :
    ∃ image, finishChunk env c lastsect = .ok image ∧ image.hdr.regions = c.regions ++ [c.curregion] ∧
      ChunkFile env disk (file ++ [image]) lastsect := by
  obtain ⟨hdr, hfinish, hregions, hfirst, hlast, hindex, hmagic⟩ := finishHeader_spec hok c.chunkno
    { firstsect := if c.chunkno = 0 then 0 else c.firstsect
      lastsect := lastsect
      regions := c.regions ++ [c.curregion] }
  simp only at hregions hfirst hlast
  have hmagic' : hdr.magic > COMPRESSED_V1 := by
    rw [hmagic]
    decide
  obtain ⟨image, size, hflush, himage, _, hinflate⟩ := ndzChunkFlush_spec hz h.holds hmagic'
  have himageRegions : image.hdr.regions = c.regions ++ [c.curregion] := by
    rw [himage, ← hregions]
    rfl
  have himageFirst : image.hdr.firstsect = if c.chunkno = 0 then 0 else c.firstsect := by
    rw [himage, ← hfirst]
  have himageLast : image.hdr.lastsect = lastsect := by
    rw [himage, ← hlast]
  have hchunk : ChunkOk env disk image := by
    constructor
    · rw [himageRegions]
      simp
    · rw [himageRegions]
      refine ⟨?_, h.apart⟩
      intro r hr
      rcases mem_append.mp hr with hr | hr
      · exact h.nonempty r hr
      · obtain rfl := mem_singleton.mp hr
        exact hsize
    · rw [himageRegions, himageFirst, himageLast]
      intro r hr
      have := h.bounds r hr
      split
      · omega
      · omega
    · rw [himageRegions]
      exact hinflate
    · -- the relocations of the chunk have been accounted for
      have hcount : (relocsBetween env.ndz.relocs image.hdr.firstsect image.hdr.lastsect).length ≤
          relocsFrom env.ndz.relocs c.firstsect := by
        unfold relocsBetween relocsFrom
        rw [← countP_eq_length_filter, ← countP_eq_length_filter]
        apply countP_mono_left
        intro r hr hin
        rw [himageFirst] at hin
        simp only [decide_eq_true_eq] at hin ⊢
        split at hin
        · rename_i hzero
          exact h.low hzero r hr
        · exact hin.1
      have hheader := h.header
      have hlength : (c.regions ++ [c.curregion]).length = c.regions.length + 1 := by simp
      rw [himageRegions, hlength]
      show 36 + 8 * (c.regions.length + 1) + 16 *
        (relocsBetween env.ndz.relocs image.hdr.firstsect image.hdr.lastsect).length ≤ 4096
      have hheader' : c.headerleft + 8 * c.regions.length +
        16 * relocsFrom env.ndz.relocs c.firstsect = 3752 := hheader
      omega
  refine ⟨image, ?_, himageRegions, ?_⟩
  · unfold finishChunk
    rw [hfinish]
    exact hflush
  · have hf := h.written
    constructor
    · intro im him
      rcases mem_append.mp him with him | him
      · exact hf.chunks im him
      · obtain rfl := mem_singleton.mp him
        exact hchunk
    · intro i im him
      rcases Nat.lt_or_ge i file.length with hi | hi
      · rw [List.getElem?_append_left hi] at him
        exact hf.number i im him
      · rw [List.getElem?_append_right hi] at him
        have hzero : i - file.length = 0 := by
          by_contra hne
          rw [List.getElem?_eq_none (by simp; omega)] at him
          contradiction
        rw [hzero, List.getElem?_cons_zero] at him
        obtain rfl := Option.some.inj him
        rw [himage]
        show hdr.blockindex = i
        rw [hindex, h.chunkno]
        omega
    · intro im him
      cases hnil : file with
      | nil =>
        rw [hnil] at him
        obtain rfl : image = im := by simpa using him
        rw [himageFirst, h.chunkno, hnil]
        rfl
      | cons a l =>
        apply hf.first
        rw [hnil] at him ⊢
        simpa using him
    · rw [isChain_append]
      refine ⟨hf.tile, isChain_singleton _, ?_⟩
      intro a ha b hb
      obtain rfl : image = b := by simpa using hb
      have hne : c.chunkno ≠ 0 := by
        rw [h.chunkno]
        intro hzero
        rw [length_eq_zero_iff.mp hzero] at ha
        simp at ha
      rw [himageFirst, if_neg hne, hf.last a ha]
    · intro im him
      rw [List.getLast?_append_of_ne_nil _ (by simp)] at him
      obtain rfl : image = im := by simpa using him
      exact himageLast

theorem placed_iff_inChunk (hchunkno : c.chunkno = file.length) {image : ChunkImage}
    (hregions : image.hdr.regions = c.regions ++ [c.curregion]) (i x : Nat) :
    Placed file c i x ↔ InChunk (file ++ [image]) i x := by
  unfold Placed InChunk
  constructor
  · intro hplaced
    obtain ⟨im, him, hx⟩ | ⟨rfl, hx⟩ := hplaced
    · have hi := (List.getElem?_eq_some_iff.mp him).1
      exact ⟨im, by rw [List.getElem?_append_left hi]; exact him, hx⟩
    · refine ⟨image, ?_, hregions ▸ hx⟩
      rw [hchunkno]
      exact List.getElem?_concat_length
  · rintro ⟨im, him, hx⟩
    rcases Nat.lt_or_ge i file.length with hi | hi
    · rw [List.getElem?_append_left hi] at him
      exact .inl ⟨im, him, hx⟩
    · have hi' : i = file.length := by
        have hlt : i < (file ++ [image]).length := (List.getElem?_eq_some_iff.mp him).1
        rw [length_append, length_singleton] at hlt
        omega
      subst hi'
      rw [List.getElem?_concat_length] at him
      obtain rfl := Option.some.inj him
      rw [hregions] at hx
      exact .inr ⟨hchunkno.symm, hx⟩

theorem relocsFrom_le_entries (hrelocs : env.ndz.relocentries ≤ 234) (addr : Nat) :
    relocsFrom env.ndz.relocs addr ≤ 234 :=
  (length_filter_le _ _).trans hrelocs

/-- The sectors that an empty chunk accepts. -/
abbrev CHUNKSECTORS : Nat := (CBUFSIZE - CHUNKSLOP) / SECSIZE

theorem Writing.room_of_fresh (h : Writing env disk file c pos)
    (hrelocs : env.ndz.relocentries ≤ 234) (hzero : c.curregion.size = 0) :
    Room c ∧ ndzChunkLeft c.chunkobj / SECSIZE = CHUNKSECTORS := by
  obtain ⟨hnil, _⟩ := h.fresh hzero
  have hdata : dataOf disk (c.regions ++ [c.curregion]) = [] := by
    rw [hnil, nil_append, dataOf_singleton, hzero, readSectors_zero]
  have hgrown := h.holds.grown
  have hleft := h.holds.left
  rw [hdata] at hgrown
  have hempty : c.chunkobj.cbufdata.length = 0 := by
    simpa using hgrown
  have hc := chunk_constants
  have hcbuf : ndzChunkLeft c.chunkobj = CBUFSIZE - CHUNKSLOP := by
    unfold ndzChunkLeft
    rw [hleft, hempty, if_neg (by omega)]
    rfl
  have hfrom := relocsFrom_le_entries hrelocs c.firstsect
  have hheader : c.headerleft + 8 * c.regions.length +
      16 * relocsFrom env.ndz.relocs c.firstsect = 3752 := h.header
  rw [hnil, length_nil] at hheader
  refine ⟨⟨?_, ?_⟩, ?_⟩
  · rw [hcbuf]
    omega
  · show 8 ≤ c.headerleft
    omega
  · rw [hcbuf]

/-- A full chunk covers some sectors. -/
theorem Writing.full (h : Writing env disk file c pos) (hrelocs : env.ndz.relocentries ≤ 234)
    (hfull : ¬Room c) : 0 < c.curregion.size ∧ c.firstsect + 3 ≤ pos := by
  have hsize : 0 < c.curregion.size := by
    by_contra hzero
    exact hfull (h.room_of_fresh hrelocs (by omega)).1
  have hmem : c.curregion ∈ c.regions ++ [c.curregion] := by simp
  have hcur := h.bounds _ hmem
  have hstop : c.curregion.stop = c.curregion.start + c.curregion.size := rfl
  refine ⟨hsize, ?_⟩
  by_cases hleft : SECSIZE ≤ ndzChunkLeft c.chunkobj
  · -- the header is full, so there are two regions at least
    have hheader : c.headerleft + 8 * c.regions.length +
        16 * relocsFrom env.ndz.relocs c.firstsect = 3752 := h.header
    have hfrom := relocsFrom_le_entries hrelocs c.firstsect
    have hregion : ¬8 ≤ c.headerleft := fun hle => hfull ⟨hleft, hle⟩
    cases hregions : c.regions with
    | nil =>
      rw [hregions, length_nil] at hheader
      omega
    | cons r l =>
      have hr : r ∈ c.regions := by simp [hregions]
      have hrlo := (h.bounds r (mem_append_left _ hr)).1
      have hrsize := h.nonempty r hr
      have hrstop : r.stop = r.start + r.size := rfl
      have hlt := (pairwise_append.mp h.apart).2.2 r hr _ mem_cons_self
      omega
  · -- the data have filled the chunk
    have hlen := @length_dataOf_le disk _ _ _ h.apart (show c.firstsect ≤ pos by omega)
      (fun r hr => (h.bounds r hr).1) fun r hr => (h.bounds r hr).2
    have hfilled := h.holds.full (by omega)
    have hsect : sectobytes (pos - c.firstsect) = (pos - c.firstsect) * 512 := rfl
    have hfilled' : 1000 * 512 ≤ (dataOf disk (c.regions ++ [c.curregion])).length := hfilled
    omega

theorem makeRoom_of_room (h : Room p.cstate) (hsize : Nat) : makeRoom env hsize p = .ok p := by
  obtain ⟨hleft, hheader⟩ := h
  unfold makeRoom
  rw [if_neg (by omega)]

/-- Where a piece goes on after a switch to a new chunk. -/
structure Switched (disk : Nat → Byte) (hsize : Nat) (p p' : Piece env.z) : Prop where
  pstart : p'.pstart = p.pstart
  psize : p'.psize = p.psize
  data : p'.data = p.data
  spanschunk : p'.spanschunk = (p.spanschunk || decide (p.psize < hsize))
  writing : Writing env disk p'.file p'.cstate p'.pstart
  chunkno : p'.cstate.chunkno = p.cstate.chunkno + 1
  room : Room p'.cstate
  left : ndzChunkLeft p'.cstate.chunkobj / SECSIZE = CHUNKSECTORS
  placed : ∀ i x, Placed p'.file p'.cstate i x ↔ Placed p.file p.cstate i x

/-- A full chunk is written. -/
theorem makeRoom_of_full (hz : env.z.Lawful) (hok : env.ndz.RelocsOk) (hrelocs : env.ndz.relocentries ≤ 234)
    (h : Writing env disk p.file p.cstate p.pstart) (hfull : ¬Room p.cstate)
    (hpstart : p.pstart < 2 ^ 32) (hfit : p.psize ≤ CHUNKSECTORS) (hsize : Nat) :
    ∃ p', makeRoom env hsize p = .ok p' ∧ Switched disk hsize p p' := by
  obtain ⟨hcur, hspan⟩ := h.full hrelocs hfull
  have hfew := h.few
  have hchunkno := h.chunkno
  obtain ⟨image, hfinish, hregions, hfile⟩ := finishChunk_spec hz hok h hcur le_rfl
  have hlen : (p.file ++ [image]).length = p.cstate.chunkno + 1 := by
    rw [length_append, length_singleton, hchunkno]
  obtain ⟨c', hstart, hwriting, -, hcur', hregions', hleft, hheader⟩ :=
    startChunk_spec hok hrelocs hfile (by omega) (by intro hzero; omega)
  rw [hlen] at hstart
  refine ⟨{ p with
    cstate := c'
    file := p.file ++ [image]
    spanschunk := p.spanschunk || decide (p.psize < hsize) }, ?_, ?_⟩
  · have hcond : ndzChunkLeft p.cstate.chunkobj < SECSIZE ∨ p.cstate.headerleft < SIZEOF_REGION := by
      by_contra hnot
      exact hfull ⟨by omega, by omega⟩
    have hassert : p.psize ≤ ndzChunkLeft c'.chunkobj / SECSIZE := by
      rw [hleft]
      exact hfit
    unfold makeRoom
    rw [if_pos hcond, hfinish, show addU32 p.cstate.chunkno 1 = p.cstate.chunkno + 1 from
      addU32_of_lt (by omega)]
    simp only [bind, Except.bind, hstart, hassert, decide_true, assert_true]
    rfl
  · constructor
    · rfl
    · rfl
    · rfl
    · rfl
    · exact hwriting
    · show c'.chunkno = _
      rw [hwriting.chunkno, hlen]
    · refine ⟨?_, hheader⟩
      have hc := chunk_constants
      show SECSIZE ≤ ndzChunkLeft c'.chunkobj
      omega
    · show ndzChunkLeft c'.chunkobj / SECSIZE = _
      rw [hleft]
    · intro i x
      have hempty : ¬Covered (c'.regions ++ [c'.curregion]) x := by
        rw [hregions', hcur']
        simp [Extent.Has, stop]
      rw [placed_iff_inChunk hchunkno hregions]
      unfold Placed
      simp only [hempty, and_false, or_false]

/-- All of a piece has been appended: up to sector `m` to the chunk that was open, and from
    there on to the next one. -/
structure BlockAppended (disk : Nat → Byte) (hsize : Nat) (p p' : Piece env.z) (m : Nat) :
    Prop where
  cut : p.pstart ≤ m ∧ m ≤ p.pstart + p.psize
  pstart : p'.pstart = p.pstart + p.psize
  writing : Writing env disk p'.file p'.cstate p'.pstart
  curregion : 0 < p.psize → 0 < p'.cstate.curregion.size
  chunkno : p'.cstate.chunkno =
    if m < p.pstart + p.psize then p.cstate.chunkno + 1 else p.cstate.chunkno
  spanschunk : p'.spanschunk = (p.spanschunk || decide (m < p.pstart + p.psize ∧ (p.psize < hsize ∨ p.pstart < m)))
  placed : ∀ i x, Placed p'.file p'.cstate i x ↔ Placed p.file p.cstate i x ∨
    i = p.cstate.chunkno ∧ p.pstart ≤ x ∧ x < m ∨
    i = p.cstate.chunkno + 1 ∧ m ≤ x ∧ x < p.pstart + p.psize

/-- The rest of the piece is not too long for a chunk, once the open one is full. -/
def Fits (p : Piece env.z) : Prop :=
  p.psize ≤ CHUNKSECTORS ∨ Room p.cstate ∧ p.psize ≤ CHUNKSECTORS + ndzChunkLeft p.cstate.chunkobj / SECSIZE

theorem appendLoop_step {hsize : Nat} {p p₁ p' : Piece env.z} (hpos : 0 < p.psize)
    (hroom : makeRoom env hsize p = .ok p₁) (hsome : appendSome p₁ = .ok p')
    (hlt : p'.psize < p.psize) : appendLoop env hsize p = appendLoop env hsize p' := by
  rw [appendLoop.eq_def env hsize p, if_neg (by omega), hroom]
  simp only [bind, Except.bind, hsome]
  rw [dif_neg (by omega)]

theorem appendLoop_zero {hsize : Nat} (hzero : p.psize = 0) : appendLoop env hsize p = .ok p := by
  rw [appendLoop.eq_def, if_pos hzero]

theorem appendLoop_spec (hz : env.z.Lawful) (hok : env.ndz.RelocsOk)
    (hrelocs : env.ndz.relocentries ≤ 234) {hsize : Nat} (h : Writing env disk p.file p.cstate p.pstart)
    (hdata : p.data = readSectors disk p.pstart p.psize) (hfit : p.pstart + p.psize < 2 ^ 32)
    (hlong : Fits p) (hle : p.psize ≤ hsize) :
    ∃ p' m, appendLoop env hsize p = .ok p' ∧ BlockAppended disk hsize p p' m := by
  -- by induction on what is left
  generalize hn : p.psize = n
  induction n using Nat.strong_induction_on generalizing p with
  | h n ih =>
    rcases Nat.eq_zero_or_pos p.psize with hzero | hpos
    · refine ⟨p, p.pstart, appendLoop_zero hzero, ?_⟩
      constructor
      · omega
      · omega
      · exact h
      · omega
      · rw [if_neg (by omega)]
      · simp [hzero]
      · intro i x
        have hnone : ¬(p.pstart ≤ x ∧ x < p.pstart) := by omega
        simp only [hzero, Nat.add_zero, hnone, and_false, or_false]
    by_cases hroom : Room p.cstate
    · -- the open chunk takes some of it
      obtain ⟨p₁, hsome, happ⟩ := appendSome_spec hz h hroom hpos hdata hfit
      have hsectors : 0 < ndzChunkLeft p.cstate.chunkobj / SECSIZE := Nat.div_pos hroom.1 (by decide)
      have hpstart := happ.pstart
      have hpsize := happ.psize
      have hchunkno := happ.chunkno
      have hlong₁ : Fits p₁ := by
        left
        rcases hlong with hlong | ⟨_, hlong⟩
        · omega
        · omega
      obtain ⟨p', m, hloop, happ'⟩ := ih p₁.psize (by omega) happ.writing happ.data (by omega)
        hlong₁ (by omega) rfl
      have hcut := happ'.cut
      refine ⟨p', m, ?_, ?_⟩
      · rw [appendLoop_step hpos (makeRoom_of_room hroom hsize) hsome (by omega), hloop]
      · have hstop : p₁.pstart + p₁.psize = p.pstart + p.psize := by omega
        constructor
        · omega
        · rw [happ'.pstart, hstop]
        · exact happ'.writing
        · intro _
          rcases Nat.eq_zero_or_pos p₁.psize with hzero | hpos₁
          · rw [appendLoop_zero hzero] at hloop
            obtain rfl := Except.ok.inj hloop
            exact happ.curregion
          · exact happ'.curregion hpos₁
        · rw [happ'.chunkno, hstop, hchunkno]
        · rw [happ'.spanschunk, hstop, happ.spanschunk]
          congr 2
          simp only [eq_iff_iff]
          constructor
          · intro hspan
            exact ⟨hspan.1, .inr (by omega)⟩
          · intro hspan
            exact ⟨hspan.1, .inl (by omega)⟩
        · intro i x
          rw [happ'.placed, happ.placed, hchunkno, hstop]
          constructor
          · rintro ((hp | hp) | hp | hp)
            · exact .inl hp
            · exact .inr (.inl ⟨hp.1, by omega⟩)
            · exact .inr (.inl ⟨hp.1, by omega⟩)
            · exact .inr (.inr hp)
          · rintro (hp | hp | hp)
            · exact .inl (.inl hp)
            · rcases Nat.lt_or_ge x p₁.pstart with hx | hx
              · exact .inl (.inr ⟨hp.1, by omega⟩)
              · exact .inr (.inl ⟨hp.1, by omega⟩)
            · exact .inr (.inr hp)
    · -- a new chunk takes all of it
      have hlong' : p.psize ≤ CHUNKSECTORS := by
        rcases hlong with hlong | ⟨hroom', _⟩
        · exact hlong
        · exact absurd hroom' hroom
      obtain ⟨p₁, hmake, hsw⟩ := makeRoom_of_full hz hok hrelocs h hroom (by omega) hlong' hsize
      have hpstart₁ := hsw.pstart
      have hpsize₁ := hsw.psize
      obtain ⟨p', hsome, happ⟩ := appendSome_spec hz hsw.writing hsw.room (by omega)
        (by rw [hsw.data, hdata, hpstart₁, hpsize₁]) (by omega)
      rw [hsw.left, Nat.min_eq_left (by omega)] at happ
      have hpstart := happ.pstart
      have hpsize := happ.psize
      refine ⟨p', p.pstart, ?_, ?_⟩
      · rw [appendLoop_step hpos hmake hsome (by omega), appendLoop_zero (by omega)]
      · constructor
        · omega
        · omega
        · exact happ.writing
        · intro _
          exact happ.curregion
        · rw [if_pos (by omega), happ.chunkno, hsw.chunkno]
        · have hiff : p.psize < hsize ↔ p.pstart < p.pstart + p.psize ∧
              (p.psize < hsize ∨ p.pstart < p.pstart) := by
            omega
          rw [happ.spanschunk, hsw.spanschunk, decide_eq_decide.mpr hiff]
        · intro i x
          have hnone : ¬(p.pstart ≤ x ∧ x < p.pstart) := by omega
          rw [happ.placed, hsw.placed, hsw.chunkno, hpstart, hpstart₁, hpsize₁]
          simp only [hnone, and_false, false_or]

end Steps

end Emulab.Imagezip
