import Emulab.Imagezip.ChunkifySpec

/-! # A delta image encodes its delta map

  The delta map is cut into hash blocks. Each of them is hashed and appended,
  and gets an entry in the signature.
-/

namespace Emulab.Imagezip

open MachineInt IntervalMap Extent List

/-! ## Section 1: Hash blocks -/

/-- The hash blocks of `size` sectors from `start` on: they end at the multiples of `b`. -/
def hashBlocks (b start size : Nat) : List Range :=
  if _h : min (b - start % b) size = 0 then
    []
  else
    ⟨start, min (b - start % b) size⟩ ::
      hashBlocks b (start + min (b - start % b) size) (size - min (b - start % b) size)
termination_by size
decreasing_by
  omega

def mapBlocks (b : Nat) {α : Type} (ranges : List (NdzRange α)) : List Range :=
  ranges.flatMap fun r => hashBlocks b r.start (r.last + 1 - r.start)

theorem hashBlocks_zero (b start : Nat) : hashBlocks b start 0 = [] := by
  rw [hashBlocks, dif_pos (Nat.min_zero _)]

theorem hashBlocks_cons {b start size : Nat} (hb : 0 < b) (hsize : 0 < size) :
    hashBlocks b start size = ⟨start, min (b - start % b) size⟩ ::
      hashBlocks b (start + min (b - start % b) size) (size - min (b - start % b) size) := by
  have := Nat.mod_lt start hb
  rw [hashBlocks, dif_neg (by omega)]

theorem mapBlocks_append (b : Nat) {α : Type} (pre rest : List (NdzRange α)) :
    mapBlocks b (pre ++ rest) = mapBlocks b pre ++ mapBlocks b rest := flatMap_append

theorem mapBlocks_ne_nil {b : Nat} (hb : 0 < b) {α : Type} {ranges : List (NdzRange α)}
    (hs : ∀ r ∈ ranges, r.start ≤ r.last) (hne : ranges ≠ []) : mapBlocks b ranges ≠ [] := by
  cases ranges with
  | nil => exact absurd rfl hne
  | cons r ranges =>
    have hle := hs r mem_cons_self
    unfold mapBlocks
    rw [flatMap_cons, hashBlocks_cons hb (by omega)]
    simp

theorem blockSize_eq {b start roffset size : Nat} (hb : 0 < b) (hroffset : roffset = start % b) :
    blockSize b roffset size = min (b - start % b) size := by
  have := Nat.mod_lt start hb
  unfold blockSize
  subst hroffset
  split
  · split
    · omega
    · omega
  · split
    · omega
    · omega

/-- A block that does not end at a multiple of the block size is the last one. -/
theorem hashBlocks_aligned {b start size : Nat} (hb : 0 < b) (hrest : 0 < size - min (b - start % b) size) :
    0 = (start + min (b - start % b) size) % b := by
  have hmod := Nat.mod_lt start hb
  have hdiv := Nat.div_add_mod start b
  have hmin : start + min (b - start % b) size = b * (start / b + 1) := by
    rw [Nat.mul_add, Nat.mul_one]
    omega
  rw [hmin, Nat.mul_mod_right]

theorem covered_hashBlocks {b : Nat} (hb : 0 < b) (start size x : Nat) :
    Covered (hashBlocks b start size) x ↔ start ≤ x ∧ x < start + size := by
  induction size using Nat.strong_induction_on generalizing start with
  | h size ih =>
    rcases Nat.eq_zero_or_pos size with rfl | hsize
    · rw [hashBlocks_zero]
      simp
    · have := Nat.mod_lt start hb
      rw [hashBlocks_cons hb hsize, covered_cons, ih _ (by omega)]
      simp only [Extent.Has, stop]
      omega

theorem covered_mapBlocks {b : Nat} (hb : 0 < b) {α : Type} {ranges : List (NdzRange α)}
    (hs : Sorted ranges) (x : Nat) : Covered (mapBlocks b ranges) x ↔ IntervalMap.get ranges x ≠ none := by
  induction ranges with
  | nil => simp [mapBlocks, IntervalMap.get]
  | cons r ranges ih =>
    obtain ⟨hle, _, hrest⟩ := sorted_cons.mp hs
    have hcons : mapBlocks b (r :: ranges) =
        hashBlocks b r.start (r.last + 1 - r.start) ++ mapBlocks b ranges := rfl
    have hin : In x r ↔ r.start ≤ x ∧ x < r.start + (r.last + 1 - r.start) := by
      unfold In
      omega
    rw [hcons, covered_append, ih hrest, covered_hashBlocks hb, ← hin]
    unfold IntervalMap.get
    rw [List.find?_cons]
    by_cases hx : In x r
    · simp [hx]
    · simp [hx]

/-! ## Section 2: What the walk keeps -/

/-- An entry of the signature has the number of the chunk of its first sector, with the flag
    if its last sector is in a later one. -/
def Signs (place : Nat → Nat → Prop) (r : NdzRange NdzHashdata) : Prop :=
  ∃ hd i j, r.data = some hd ∧ place i r.start ∧ place j r.last ∧ i ≤ j ∧
    HASH_CHUNKNO hd.chunkno = i ∧ (HASH_CHUNKDOESSPAN hd.chunkno = true ↔ i < j)

theorem Signs.mono {place place' : Nat → Nat → Prop} {r : NdzRange NdzHashdata}
    (h : Signs place r) (hle : ∀ i x, place i x → place' i x) : Signs place' r := by
  obtain ⟨hd, i, j, hdata, hi, hj, hspan⟩ := h
  exact ⟨hd, i, j, hdata, hle _ _ hi, hle _ _ hj, hspan⟩

def extentOf {α : Type} (r : NdzRange α) : Range := ⟨r.start, r.last + 1 - r.start⟩

theorem extentOf_mk {α : Type} (start : Nat) {size : Nat} (data : Option α) (hsize : 0 < size) :
    extentOf (⟨start, start + size - 1, data⟩ : NdzRange α) = ⟨start, size⟩ := by
  have h : start + size - 1 + 1 - start = size := by omega
  unfold extentOf
  rw [h]

theorem chunkno_setspan {k : Nat} (hk : k < 2 ^ 31) :
    HASH_CHUNKNO (HASH_CHUNKSETSPAN k) = k ∧ HASH_CHUNKDOESSPAN (HASH_CHUNKSETSPAN k) = true := by
  unfold HASH_CHUNKNO HASH_CHUNKSETSPAN HASH_CHUNKDOESSPAN
  constructor
  · rw [Nat.or_mod_two_pow, Nat.mod_self, Nat.or_zero, Nat.mod_eq_of_lt hk]
  · rw [Nat.testBit_or, Nat.testBit_two_pow_self, Bool.or_true]

theorem chunkno_nospan {k : Nat} (hk : k < 2 ^ 31) : HASH_CHUNKNO k = k ∧ HASH_CHUNKDOESSPAN k = false :=
  ⟨Nat.mod_eq_of_lt hk, Nat.testBit_lt_two_pow hk⟩

variable (env : ChunkifyEnv) (disk : Nat → Byte) (has : Nat → Prop)
  (sigmap2 : NdzRangemap NdzHashdata)

/-- The invariant of the walk with an open chunk, when the blocks `done` are done and
    everything in front of sector `pos` is behind. -/
structure Walked (done : List Range) (c : ChunkState env.z) (d : Delta env.z) (pos : Nat) :
    Prop where
  writing : Writing env disk d.file c pos
  started : 0 < c.curregion.size ↔ done ≠ []
  placed : ∀ x, (∃ i, Placed d.file c i x) ↔ Covered done x
  hashcurentry : d.hashcurentry = done.length
  inv : d.sigmap.Inv
  bounds : d.sigmap.loaddr = NDZ_LOADDR ∧ d.sigmap.hiaddr = NDZ_HIADDR
  blocks : d.sigmap.ranges.map extentOf = done
  behind : ∀ r ∈ d.sigmap.ranges, r.last < pos
  sectors : d.sigmap.sectors ≤ pos
  signs : ∀ r ∈ d.sigmap.ranges, Signs (Placed d.file c) r
  ready : d.ndz2.Ready disk
  has : ∀ x, has x → d.ndz2.Has x
  sigmap2 : d.sigmap2.ranges = sigmap2.ranges

/-- The hash blocks that imagedelta can cope with: the signature has room for all of them, what is left of a
    block when a chunk is full fits the next one, and all relocations fit a header. -/
structure Suits (blocks : List Range) : Prop where
  first : ∀ r : Range, blocks.head? = some r → r.size ≤ 2 * CHUNKSECTORS
  rest : ∀ r ∈ blocks.tail, r.size ≤ CHUNKSECTORS
  count : blocks.length ≤ env.hashentries
  relocs : env.ndz.relocentries ≤ 234

/-- The delta image encodes some hash blocks. -/
structure DeltaEncoded (blocks : List Range) (d : Delta env.z) : Prop where
  file : ChunkFile env disk d.file (env.maphi + 1)
  nonempty : blocks ≠ [] → d.file ≠ []
  regions : ∀ x, (∃ i, InChunk d.file i x) ↔ Covered blocks x
  sorted : Sorted d.sigmap.ranges
  blocks : d.sigmap.ranges.map extentOf = blocks
  signs : ∀ r ∈ d.sigmap.ranges, Signs (InChunk d.file) r

section Steps

variable {env : ChunkifyEnv} {disk : Nat → Byte} {has : Nat → Prop}
  {sigmap2 : NdzRangemap NdzHashdata} {done : List Range} {c : ChunkState env.z} {d : Delta env.z}
  {pos : Nat}

theorem fetchHash_spec (hs : Sorted sigmap2.ranges) (hstart hsize : Nat) (data : List Byte) :
    ∃ hash sigmap2', fetchHash env sigmap2 hstart hsize data = .ok (hash, sigmap2') ∧
      sigmap2'.ranges = sigmap2.ranges := by
  obtain ⟨res, hres, _⟩ := ndzRangemapLookup_spec hs hstart
  unfold fetchHash
  simp only [hres]
  split
  · exact ⟨_, _, rfl, rfl⟩
  · split
    · exact ⟨_, _, rfl, rfl⟩
    · split
      · exact ⟨_, _, rfl, rfl⟩
      · exact ⟨_, _, rfl, rfl⟩

/-- Sectors between two blocks are skipped. -/
theorem Walked.skip (h : Walked env disk has sigmap2 done c d pos) (hne : done ≠ []) {pos' : Nat}
    (hle : pos ≤ pos') : Walked env disk has sigmap2 done c d pos' :=
  { h with
    writing := h.writing.skip (h.started.mpr hne) hle
    behind := fun r hr => (h.behind r hr).trans_le hle
    sectors := h.sectors.trans hle }

theorem Writing.chunkno_lt {file : List ChunkImage} (h : Writing env disk file c pos)
    (hpos : pos < 2 ^ 32) : c.chunkno + 1 < 2 ^ 31 := by
  have hfew := h.few
  have hcur := h.bounds c.curregion (by simp)
  have hstop : c.curregion.stop = c.curregion.start + c.curregion.size := rfl
  omega

/-- The entry of a block that is appended up to sector `m` to one chunk, and then to the next. -/
theorem signs_of_appended {hsize : Nat} {p p' : Piece env.z} {m : Nat}
    (h : BlockAppended disk hsize p p' m) (hpos : 0 < p.psize) (hall : hsize = p.psize)
    (hspan : p.spanschunk = false) (hchunkno : p.cstate.chunkno + 1 < 2 ^ 31) {hd : NdzHashdata}
    (hhd : hd.chunkno = if p'.spanschunk then HASH_CHUNKSETSPAN (subU32 p'.cstate.chunkno 1)
      else p'.cstate.chunkno) :
    Signs (Placed p'.file p'.cstate) ⟨p.pstart, p.pstart + p.psize - 1, some hd⟩ := by
  obtain ⟨hlo, hhi⟩ := h.cut
  have hspans := h.spanschunk
  have hno := h.chunkno
  rw [hspan, Bool.false_or] at hspans
  by_cases hmid : m < p.pstart + p.psize ∧ p.pstart < m
  · -- the block is split
    have hdecide : decide (m < p.pstart + p.psize ∧ (p.psize < hsize ∨ p.pstart < m)) = true :=
      decide_eq_true ⟨hmid.1, .inr hmid.2⟩
    rw [hdecide] at hspans
    rw [if_pos hmid.1] at hno
    rw [hspans, if_pos rfl, hno, subU32_of_le (by omega) (by omega), Nat.add_sub_cancel] at hhd
    obtain ⟨hset, hdoes⟩ := chunkno_setspan (show p.cstate.chunkno < 2 ^ 31 by omega)
    refine ⟨hd, p.cstate.chunkno, p.cstate.chunkno + 1, rfl, ?_, ?_, by omega, ?_, ?_⟩
    · exact (h.placed _ _).mpr (.inr (.inl ⟨rfl, le_rfl, hmid.2⟩))
    · refine (h.placed _ _).mpr (.inr (.inr ⟨rfl, ?_, ?_⟩))
      · show m ≤ p.pstart + p.psize - 1
        omega
      · show p.pstart + p.psize - 1 < p.pstart + p.psize
        omega
    · rw [hhd, hset]
    · rw [hhd, hdoes]
      simp
  · have hdecide : decide (m < p.pstart + p.psize ∧ (p.psize < hsize ∨ p.pstart < m)) = false := by
      apply decide_eq_false
      omega
    rw [hdecide] at hspans
    rw [hspans, if_neg Bool.false_ne_true] at hhd
    have hlt : p'.cstate.chunkno < 2 ^ 31 := by
      rw [hno]
      split
      · omega
      · omega
    obtain ⟨hset, hdoes⟩ := chunkno_nospan hlt
    have hplaced : ∀ x, p.pstart ≤ x → x < p.pstart + p.psize →
        Placed p'.file p'.cstate p'.cstate.chunkno x := by
      intro x hx hx'
      rw [h.placed]
      by_cases hm : m < p.pstart + p.psize
      · rw [if_pos hm] at hno
        exact .inr (.inr ⟨hno, by omega, hx'⟩)
      · rw [if_neg hm] at hno
        exact .inr (.inl ⟨hno, hx, by omega⟩)
    refine ⟨hd, p'.cstate.chunkno, p'.cstate.chunkno, rfl, ?_, ?_, le_rfl, ?_, ?_⟩
    · apply hplaced _ le_rfl
      show p.pstart < p.pstart + p.psize
      omega
    · apply hplaced
      · show p.pstart ≤ p.pstart + p.psize - 1
        omega
      · show p.pstart + p.psize - 1 < p.pstart + p.psize
        omega
    · rw [hhd, hset]
    · rw [hhd, hdoes]
      simp

/-- Sectors stay where they are. -/
theorem BlockAppended.mono {hsize : Nat} {p p' : Piece env.z} {m : Nat}
    (h : BlockAppended disk hsize p p' m) {i x : Nat} (hp : Placed p.file p.cstate i x) :
    Placed p'.file p'.cstate i x := (h.placed i x).mpr (.inl hp)

theorem BlockAppended.exists_placed {hsize : Nat} {p p' : Piece env.z} {m : Nat}
    (h : BlockAppended disk hsize p p' m) (x : Nat) :
    (∃ i, Placed p'.file p'.cstate i x) ↔
      (∃ i, Placed p.file p.cstate i x) ∨ p.pstart ≤ x ∧ x < p.pstart + p.psize := by
  obtain ⟨hlo, hhi⟩ := h.cut
  constructor
  · rintro ⟨i, hp⟩
    rcases (h.placed i x).mp hp with hp | ⟨-, hx⟩ | ⟨-, hx⟩
    · exact .inl ⟨i, hp⟩
    · exact .inr ⟨hx.1, by omega⟩
    · exact .inr ⟨by omega, hx.2⟩
  · rintro (⟨i, hp⟩ | hx)
    · exact ⟨i, h.mono hp⟩
    · rcases Nat.lt_or_ge x m with hm | hm
      · exact ⟨_, (h.placed _ x).mpr (.inr (.inl ⟨rfl, hx.1, hm⟩))⟩
      · exact ⟨_, (h.placed _ x).mpr (.inr (.inr ⟨rfl, hm, hx.2⟩))⟩

/-- A block is hashed, appended and signed. -/
theorem chunkifyBlock_spec (hz : env.z.Lawful) (hok : env.ndz.RelocsOk)
    (hrelocs : env.ndz.relocentries ≤ 234) (hsorted : Sorted sigmap2.ranges) {hsize : Nat}
    (h : Walked env disk has sigmap2 done c d pos) (hpos : 0 < hsize) (hfit : pos + hsize < 2 ^ 32)
    (hhas : ∀ x, pos ≤ x → x < pos + hsize → has x) (hentries : done.length < env.hashentries)
    (hlong : hsize ≤ CHUNKSECTORS ∨
      Room c ∧ hsize ≤ CHUNKSECTORS + ndzChunkLeft c.chunkobj / SECSIZE) :
    ∃ c' d', chunkifyBlock env pos hsize c d = .ok (c', d') ∧
      Walked env disk has sigmap2 (done ++ [⟨pos, hsize⟩]) c' d' (pos + hsize) := by
  obtain ⟨ndz2, hread, hsame, hready⟩ := ndzReaddata_spec h.ready (show pos + hsize ≤ 2 ^ 32 by omega)
    fun x hx hx' => h.has x (hhas x hx hx')
  obtain ⟨hash, sigmap2', hfetch, hranges⟩ : ∃ hash sigmap2',
      fetchHash env d.sigmap2 pos hsize (readSectors disk pos hsize) = .ok (hash, sigmap2') ∧
        sigmap2'.ranges = d.sigmap2.ranges :=
    fetchHash_spec (h.sigmap2 ▸ hsorted) pos hsize _
  have hchunkno := h.writing.chunkno_lt (by omega)
  obtain ⟨p', m, hloop, happ⟩ := appendLoop_spec hz hok hrelocs
    (p := { pstart := pos
            psize := hsize
            data := readSectors disk pos hsize
            spanschunk := false
            cstate := c
            file := d.file })
    h.writing rfl hfit hlong le_rfl
  -- the new entry of the signature
  generalize hhd : NdzHashdata.mk
    (if p'.spanschunk then HASH_CHUNKSETSPAN (subU32 p'.cstate.chunkno 1) else p'.cstate.chunkno)
    env.hashlen hash = hd
  have hhd' : hd.chunkno = if p'.spanschunk then HASH_CHUNKSETSPAN (subU32 p'.cstate.chunkno 1)
      else p'.cstate.chunkno := by
    rw [← hhd]
  have hsigns := signs_of_appended happ hpos rfl rfl hchunkno hhd'
  have hlo : d.sigmap.loaddr ≤ pos := by
    rw [h.bounds.1]
    exact Nat.zero_le _
  have hhi : pos + hsize - 1 ≤ d.sigmap.hiaddr := by
    rw [h.bounds.2]
    show _ ≤ 2 ^ 64 - 1
    omega
  have hsectors := h.sectors
  obtain ⟨sigmap', halloc, heff, hsize'⟩ :=
    ndzRangemapAlloc_behind h.inv pos hsize (some hd) hpos hlo hhi h.behind (by omega)
  have hlast := (ndzRangemapAlloc_behind_cases h.inv hpos hlo hhi h.behind halloc).2.2 rfl
  refine ⟨p'.cstate, { d with
    file := p'.file
    hashcurentry := d.hashcurentry + 1
    sigmap := sigmap'
    ndz2 := ndz2
    sigmap2 := sigmap2' }, ?_, ?_⟩
  · have hcount : assert (d.hashcurentry < env.hashentries) = .ok () := by
      rw [h.hashcurentry, decide_eq_true hentries, assert_true]
    unfold chunkifyBlock
    rw [bind_of_ok hread]
    dsimp only
    rw [if_neg (by simp), bind_of_ok hcount, bind_of_ok hfetch]
    dsimp only
    rw [bind_of_ok hloop, hhd, halloc, allocResult_ok]
    rfl
  · have hpstart : p'.pstart = pos + hsize := happ.pstart
    have hextent := extentOf_mk pos (some hd) hpos
    constructor
    · exact hpstart ▸ happ.writing
    · simp [happ.curregion hpos]
    · intro x
      rw [happ.exists_placed, covered_append, h.placed]
      simp [Extent.Has, stop]
    · simp [h.hashcurentry]
    · exact heff.inv
    · rw [heff.bounds.1, heff.bounds.2]
      exact h.bounds
    · simp only [hlast, map_append, h.blocks, map_cons, map_nil, hextent]
    · intro r hr
      simp only [hlast, mem_append, mem_singleton] at hr
      rcases hr with hr | rfl
      · have := h.behind r hr
        omega
      · simp only
        omega
    · simp only [hsize']
      omega
    · intro r hr
      simp only [hlast, mem_append, mem_singleton] at hr
      rcases hr with hr | rfl
      · exact (h.signs r hr).mono fun i x => happ.mono
      · exact hsigns
    · exact hready
    · intro x hx
      obtain ⟨r, hr, hin⟩ := h.has x hx
      exact ⟨r, hsame.ranges ▸ hr, hin⟩
    · exact hranges.trans h.sigmap2

theorem Suits.fits {all later : List Range} {r : Range} (hall : all = done ++ r :: later)
    (hsuits : Suits env all) (h : Walked env disk has sigmap2 done c d pos) :
    r.size ≤ CHUNKSECTORS ∨
      Room c ∧ r.size ≤ CHUNKSECTORS + ndzChunkLeft c.chunkobj / SECSIZE := by
  cases hdone : done with
  | nil =>
    -- the first block finds an empty chunk
    have hzero : c.curregion.size = 0 := by
      by_contra hne
      exact h.started.mp (Nat.pos_of_ne_zero hne) hdone
    obtain ⟨hroom, hleft⟩ := h.writing.room_of_fresh hsuits.relocs hzero
    have hfirst := hsuits.first r (by rw [hall, hdone]; rfl)
    exact .inr ⟨hroom, by omega⟩
  | cons r' done' =>
    left
    apply hsuits.rest
    rw [hall, hdone]
    simp

theorem blockLoop_spec (hz : env.z.Lawful) (hok : env.ndz.RelocsOk)
    (hsorted : Sorted sigmap2.ranges) (hb : 0 < env.hashblksize) {all later : List Range}
    (hsuits : Suits env all) {size roffset : Nat} (h : Walked env disk has sigmap2 done c d pos)
    (hall : all = done ++ (hashBlocks env.hashblksize pos size ++ later))
    (hroffset : 0 < size → roffset = pos % env.hashblksize) (hfit : pos + size < 2 ^ 32)
    (hhas : ∀ x, pos ≤ x → x < pos + size → has x) :
    ∃ c' d', blockLoop env roffset pos size c d = .ok (c', d') ∧
      Walked env disk has sigmap2 (done ++ hashBlocks env.hashblksize pos size) c' d' (pos + size) := by
  induction size using Nat.strong_induction_on generalizing done c d pos roffset with
  | h size ih =>
    rcases Nat.eq_zero_or_pos size with rfl | hpos
    · refine ⟨c, d, ?_, ?_⟩
      · rw [blockLoop.eq_def, if_pos rfl]
      · rwa [hashBlocks_zero, append_nil]
    have hmod := Nat.mod_lt pos hb
    have hblock : blockSize env.hashblksize roffset size = _ := blockSize_eq hb (hroffset hpos)
    have haligned : 0 < size - min (env.hashblksize - pos % env.hashblksize) size → _ := hashBlocks_aligned hb
    have hle : min (env.hashblksize - pos % env.hashblksize) size ≤ size := Nat.min_le_right _ _
    have hsize : 0 < min (env.hashblksize - pos % env.hashblksize) size := by omega
    rw [hashBlocks_cons hb hpos] at hall ⊢
    generalize min (env.hashblksize - pos % env.hashblksize) size = hsize' at *
    have hlong := hsuits.fits (hall.trans (by rw [cons_append])) h
    have hcount : done.length < env.hashentries := by
      have := hsuits.count
      rw [hall] at this
      simp only [length_append, length_cons] at this
      omega
    obtain ⟨c₁, d₁, hchunkify, h₁⟩ := chunkifyBlock_spec hz hok hsuits.relocs hsorted h hsize
      (by omega) (fun x hx hx' => hhas x hx (by omega)) hcount hlong
    obtain ⟨c', d', hloop, h'⟩ := ih (size - hsize') (by omega) h₁
      (by rw [hall]; simp) haligned (by omega) (fun x hx hx' => hhas x (by omega) (by omega))
    refine ⟨c', d', ?_, ?_⟩
    · rw [blockLoop.eq_def, if_neg (by omega), hblock]
      dsimp only
      rw [dif_neg (by omega), bind_of_ok hchunkify]
      exact hloop
    · rw [show pos + size = pos + hsize' + (size - hsize') by omega]
      rwa [append_assoc] at h'

theorem chunkify_eq {range : NdzRange NdzHashdata} {next : List (NdzRange NdzHashdata)}
    (hc : d.cstate = some c ∨ d.cstate = none ∧ startChunk env 0 range.start = .ok c)
    {c' : ChunkState env.z} {d' : Delta env.z}
    (hloop : blockLoop env (range.start % env.hashblksize) range.start
      (subU64 (addU64 range.last 1) range.start) c d = .ok (c', d')) :
    chunkify env range next d =
      if next.isEmpty then do
        let image ← finishChunk env c' (addU32 env.maphi 1)
        return { d' with cstate := none, file := d'.file ++ [image] }
      else
        return { d' with cstate := some c' } := by
  unfold chunkify
  dsimp only
  obtain hc | ⟨hc, hstart⟩ := hc
  · rw [hc]
    dsimp only
    rw [bind_of_ok rfl, bind_of_ok hloop]
  · rw [hc]
    dsimp only
    rw [bind_of_ok hstart, bind_of_ok hloop]

theorem Walked.finish (hz : env.z.Lawful) (hok : env.ndz.RelocsOk)
    (h : Walked env disk has sigmap2 done c d pos) (hne : done ≠ []) (hmaphi : pos ≤ env.maphi + 1)
    (h32 : env.maphi + 1 < 2 ^ 32) :
    ∃ image, finishChunk env c (addU32 env.maphi 1) = .ok image ∧
      DeltaEncoded env disk done { d with cstate := none, file := d.file ++ [image] } := by
  obtain ⟨image, hfinish, hregions, hfile⟩ := finishChunk_spec hz hok h.writing (h.started.mpr hne) hmaphi
  have hplaced := placed_iff_inChunk h.writing.chunkno hregions
  refine ⟨image, ?_, ?_⟩
  · rw [addU32_of_lt h32]
    exact hfinish
  · constructor
    · exact hfile
    · intro _
      exact append_ne_nil_of_right_ne_nil _ (by simp)
    · intro x
      rw [← h.placed]
      simp only [hplaced]
    · exact h.inv.sorted
    · exact h.blocks
    · intro r hr
      exact (h.signs r hr).mono fun i x hp => (hplaced i x).mp hp

theorem chunkify_spec (hz : env.z.Lawful) (hok : env.ndz.RelocsOk)
    (hsorted : Sorted sigmap2.ranges) (hb : 0 < env.hashblksize) {all later : List Range}
    (hsuits : Suits env all) (h32 : env.maphi + 1 < 2 ^ 32) {range : NdzRange NdzHashdata}
    (hle : range.start ≤ range.last) (hlast : range.last ≤ env.maphi) (hhas : ∀ x, In x range → has x)
    (hc : d.cstate = some c ∨ d.cstate = none ∧ startChunk env 0 range.start = .ok c)
    (h : Walked env disk has sigmap2 done c d range.start) (hall : all = done ++
      (hashBlocks env.hashblksize range.start (range.last + 1 - range.start) ++ later))
    (next : List (NdzRange NdzHashdata)) :
    ∃ d', chunkify env range next d = .ok d' ∧
      if next = [] then
        DeltaEncoded env disk (done ++ hashBlocks env.hashblksize range.start
          (range.last + 1 - range.start)) d'
      else
        ∃ c', d'.cstate = some c' ∧ Walked env disk has sigmap2 (done ++
          hashBlocks env.hashblksize range.start (range.last + 1 - range.start)) c' d' (range.last + 1) := by
  have hsize : subU64 (addU64 range.last 1) range.start = range.last + 1 - range.start := by
    rw [addU64_of_lt (by omega), subU64_of_le (by omega) (by omega)]
  have hstop : range.start + (range.last + 1 - range.start) = range.last + 1 := by omega
  obtain ⟨c', d', hloop, hwalked⟩ := blockLoop_spec hz hok hsorted hb hsuits h hall
    (fun _ => rfl) (by omega) fun x hx hx' => hhas x ⟨hx, by omega⟩
  rw [hstop] at hwalked
  have hne : done ++ hashBlocks env.hashblksize range.start (range.last + 1 - range.start) ≠ [] := by
    rw [hashBlocks_cons hb (by omega)]
    exact append_ne_nil_of_right_ne_nil _ (by simp)
  rw [chunkify_eq hc (by rw [hsize]; exact hloop)]
  cases next with
  | nil =>
    obtain ⟨image, hfinish, hencoded⟩ := hwalked.finish hz hok hne (by omega) h32
    refine ⟨{ d' with cstate := none, file := d'.file ++ [image] }, ?_, ?_⟩
    · rw [isEmpty_nil, if_pos rfl, bind_of_ok hfinish]
      rfl
    · rw [if_pos rfl]
      exact hencoded
  | cons r next =>
    refine ⟨{ d' with cstate := some c' }, rfl, ?_⟩
    rw [if_neg (by simp)]
    exact ⟨c', rfl, { hwalked with }⟩

theorem chunkFile_nil (env : ChunkifyEnv) (disk : Nat → Byte) (next : Nat) : ChunkFile env disk [] next where
  chunks := by simp
  number := by simp
  first := by simp
  tile := List.IsChain.nil
  last := by simp

theorem walked_init (hok : env.ndz.RelocsOk) (hrelocs : env.ndz.relocentries ≤ 234)
    {ndz2 : ImageFile} (hready : ndz2.Ready disk) {sect : Nat}
    (hlow : ∀ r ∈ env.ndz.relocs, sect ≤ r.sector) :
    ∃ c, startChunk env 0 sect = .ok c ∧ Walked env disk ndz2.Has sigmap2 [] c
      { cstate := none
        file := []
        hashcurentry := 0
        sigmap := ndzRangemapInit NDZ_LOADDR (NDZ_HIADDR - NDZ_LOADDR)
        ndz2 := ndz2
        sigmap2 := sigmap2 } sect := by
  obtain ⟨c, hstart, hwriting, -, hcur, hregions, -, -⟩ := startChunk_spec hok hrelocs
    (chunkFile_nil env disk sect) (Nat.zero_le _) fun _ => hlow
  refine ⟨c, hstart, ?_⟩
  constructor
  · exact hwriting
  · simp [hcur]
  · intro x
    simp only [covered_nil, iff_false]
    rintro ⟨i, ⟨image, him, -⟩ | ⟨-, hx⟩⟩
    · simp at him
    · rw [hregions, hcur] at hx
      simp [Extent.Has, stop] at hx
      omega
  · rfl
  · exact inv_ndzRangemapInit (by decide)
  · exact ⟨rfl, rfl⟩
  · rfl
  · intro r hr
    cases hr
  · exact Nat.zero_le _
  · intro r hr
    cases hr
  · exact hready
  · exact fun x hx => hx
  · rfl

/-- What holds between two ranges of the walk. -/
def Between (env : ChunkifyEnv) (disk : Nat → Byte) (has : Nat → Prop)
    (sigmap2 : NdzRangemap NdzHashdata) (d₀ : Delta env.z) (pre rest : List (NdzRange NdzHashdata))
    (d : Delta env.z) : Prop :=
  if pre = [] then d = d₀
  else if rest = [] then DeltaEncoded env disk (mapBlocks env.hashblksize pre) d
  else ∃ c pos, d.cstate = some c ∧
    Walked env disk has sigmap2 (mapBlocks env.hashblksize pre) c d pos ∧ ∀ r ∈ rest, pos ≤ r.start

theorem makeDelta_spec (hz : env.z.Lawful) (hok : env.ndz.RelocsOk)
    (hsorted : Sorted sigmap2.ranges) (hb : 0 < env.hashblksize) (h32 : env.maphi + 1 < 2 ^ 32)
    {ndz2 : ImageFile} (hready : ndz2.Ready disk) {dmap : NdzRangemap NdzHashdata}
    (hs : Sorted dmap.ranges) (hmaphi : ∀ r ∈ dmap.ranges, r.last ≤ env.maphi)
    (hhas : ∀ r ∈ dmap.ranges, ∀ x, In x r → ndz2.Has x)
    (hrelocs : ∀ reloc ∈ env.ndz.relocs, ∃ r ∈ dmap.ranges, In reloc.sector r)
    (hsuits : Suits env (mapBlocks env.hashblksize dmap.ranges)) :
    ∃ d, makeDelta env dmap ndz2 sigmap2 = .ok d ∧
      DeltaEncoded env disk (mapBlocks env.hashblksize dmap.ranges) d := by
  let d₀ : Delta env.z := {
    cstate := none
    file := []
    hashcurentry := 0
    sigmap := ndzRangemapInit NDZ_LOADDR (NDZ_HIADDR - NDZ_LOADDR)
    ndz2 := ndz2
    sigmap2 := sigmap2 }
  let P : List (NdzRange NdzHashdata) → List (NdzRange NdzHashdata) → Delta env.z → Prop :=
    fun pre rest d => dmap.ranges = pre ++ rest ∧ Between env disk ndz2.Has sigmap2 d₀ pre rest d
  have hstep : ∀ pre range next d, P pre (range :: next) d →
      ∃ d', chunkify env range next d = .ok d' ∧ P (pre ++ [range]) next d' := by
    rintro pre range next d ⟨hsplit, hbetween⟩
    have hmem : range ∈ dmap.ranges := hsplit ▸ mem_append_right _ mem_cons_self
    have hs' := hs
    rw [hsplit] at hs'
    obtain ⟨hpre, hrest, hbehind⟩ := sorted_append.mp hs'
    obtain ⟨hle, hnext, _⟩ := sorted_cons.mp hrest
    -- the chunk that the range goes to
    obtain ⟨c, hc, hwalked⟩ : ∃ c, (d.cstate = some c ∨
        d.cstate = none ∧ startChunk env 0 range.start = .ok c) ∧
        Walked env disk ndz2.Has sigmap2 (mapBlocks env.hashblksize pre) c d range.start := by
      unfold Between at hbetween
      by_cases hnil : pre = []
      · rw [if_pos hnil] at hbetween
        subst hnil hbetween
        have hlow : ∀ reloc ∈ env.ndz.relocs, range.start ≤ reloc.sector := by
          intro reloc hreloc
          obtain ⟨r, hr, hin⟩ := hrelocs reloc hreloc
          rw [hsplit, nil_append] at hr
          rcases mem_cons.mp hr with rfl | hr
          · exact hin.1
          · have := hnext r hr
            have := hin.1
            omega
        obtain ⟨c, hstart, hwalked⟩ := walked_init hok hsuits.relocs hready hlow
        exact ⟨c, .inr ⟨rfl, hstart⟩, hwalked⟩
      · rw [if_neg hnil, if_neg (by simp)] at hbetween
        obtain ⟨c, pos, hcstate, hwalked, hpos⟩ := hbetween
        exact ⟨c, .inl hcstate, hwalked.skip (mapBlocks_ne_nil hb hpre.nonempty hnil)
          (hpos range mem_cons_self)⟩
    obtain ⟨d', hchunkify, h'⟩ := chunkify_spec hz hok hsorted hb hsuits h32 hle
      (hmaphi range hmem) (hhas range hmem) hc hwalked
      (by rw [hsplit, mapBlocks_append]; rfl) next
    have hconcat : mapBlocks env.hashblksize pre ++
        hashBlocks env.hashblksize range.start (range.last + 1 - range.start) =
        mapBlocks env.hashblksize (pre ++ [range]) := by
      rw [mapBlocks_append]
      simp [mapBlocks]
    rw [hconcat] at h'
    refine ⟨d', hchunkify, by rw [hsplit, append_cons], ?_⟩
    unfold Between
    rw [if_neg (by simp)]
    split at h'
    · rename_i hnil
      rw [if_pos hnil]
      exact h'
    · rename_i hcons
      obtain ⟨c', hcstate, hwalked'⟩ := h'
      rw [if_neg hcons]
      exact ⟨c', _, hcstate, hwalked', fun r hr => hnext r hr⟩
  obtain ⟨d, hiter, _, hbetween⟩ := iterateFrom_spec P hstep
    (show P [] dmap.ranges d₀ from ⟨rfl, rfl⟩)
  refine ⟨d, hiter, ?_⟩
  rw [nil_append] at hbetween
  unfold Between at hbetween
  by_cases hnil : dmap.ranges = []
  · -- there is nothing in the delta
    rw [if_pos hnil] at hbetween
    rw [hbetween, hnil]
    constructor
    · exact chunkFile_nil env disk _
    · intro hne
      exact absurd rfl hne
    · intro x
      simp [InChunk, mapBlocks, d₀]
    · exact sorted_nil
    · rfl
    · intro r hr
      cases hr
  · rwa [if_neg hnil, if_pos rfl] at hbetween

end Steps

/-! ## Section 3: The delta image -/

theorem ascending_append {l l' : List Extent} (h : Ascending l) (h' : Ascending l')
    (hle : ∀ e ∈ l, ∀ e' ∈ l', e.stop ≤ e'.start) : Ascending (l ++ l') := by
  constructor
  · intro e he
    rcases mem_append.mp he with he | he
    · exact h.nonempty e he
    · exact h'.nonempty e he
  · exact pairwise_append.mpr ⟨h.ordered, h'.ordered, hle⟩

/-- Where the chunks follow each other, so do their regions. -/
theorem ascending_regions {env : ChunkifyEnv} {disk : Nat → Byte} {file : List ChunkImage}
    (hok : ∀ image ∈ file, ChunkOk env disk image)
    (htile : file.IsChain fun (a b : ChunkImage) => b.hdr.firstsect = a.hdr.lastsect) :
    Ascending (file.flatMap fun image => image.hdr.regions) ∧
      ∀ image : ChunkImage, file.head? = some image →
        ∀ r ∈ file.flatMap (fun image => image.hdr.regions), image.hdr.firstsect ≤ r.start := by
  induction file with
  | nil => exact ⟨⟨by simp, List.Pairwise.nil⟩, by simp⟩
  | cons image file ih =>
    obtain ⟨hasc, hfirst⟩ := ih (fun im him => hok im (mem_cons_of_mem _ him)) htile.tail
    have himage := hok image mem_cons_self
    -- the rest begins where this chunk ends
    have hbehind : ∀ r ∈ file.flatMap (fun image => image.hdr.regions),
        image.hdr.lastsect ≤ r.start := by
      intro r hr
      cases file with
      | nil => simp at hr
      | cons next file =>
        have := hfirst next rfl r hr
        have hnext : next.hdr.firstsect = image.hdr.lastsect := (isChain_cons_cons.mp htile).1
        omega
    have hle : image.hdr.firstsect ≤ image.hdr.lastsect := by
      obtain ⟨r, hr⟩ := exists_mem_of_ne_nil _ himage.nonempty
      have := himage.within r hr
      have hstop : r.stop = r.start + r.size := rfl
      omega
    rw [flatMap_cons]
    constructor
    · apply ascending_append himage.regions.ascending hasc
      intro e he e' he'
      exact (himage.within e he).2.trans (hbehind e' he')
    · intro im him r hr
      obtain rfl : image = im := by simpa using him
      rcases mem_append.mp hr with hr | hr
      · exact (himage.within r hr).1
      · exact hle.trans (hbehind r hr)

structure Encodes (env : ChunkifyEnv) (disk : Nat → Byte) (dmap : NdzRangemap NdzHashdata)
    (d : Delta env.z) : Prop where
  /-- The chunks tile the addresses, and each has the data of its regions. -/
  file : ChunkFile env disk d.file (env.maphi + 1)
  ascending : Ascending (d.file.flatMap fun image => image.hdr.regions)
  regions : ∀ x, Covered (d.file.flatMap fun image => image.hdr.regions) x ↔ dmap.get x ≠ none
  /-- The signature is that of the delta map. -/
  signature : ∀ x, d.sigmap.get x ≠ none ↔ dmap.get x ≠ none
  signs : ∀ r ∈ d.sigmap.ranges, Signs (InChunk d.file) r

theorem covered_extents {α : Type} {ranges : List (NdzRange α)} (x : Nat) :
    Covered (ranges.map extentOf) x ↔ IntervalMap.get ranges x ≠ none := by
  have hiff : ∀ r : NdzRange α, (extentOf r).Has x ↔ In x r := by
    intro r
    unfold Extent.Has extentOf stop In
    simp only
    omega
  rw [Ne, get_eq_none_iff]
  simp [Covered, hiff]

theorem covered_regions (file : List ChunkImage) (x : Nat) :
    Covered (file.flatMap fun image => image.hdr.regions) x ↔ ∃ i, InChunk file i x := by
  unfold Covered InChunk
  constructor
  · rintro ⟨r, hr, hx⟩
    obtain ⟨image, him, hr⟩ := mem_flatMap.mp hr
    obtain ⟨i, hi⟩ := mem_iff_getElem?.mp him
    exact ⟨i, image, hi, r, hr, hx⟩
  · rintro ⟨i, image, hi, r, hr, hx⟩
    exact ⟨r, mem_flatMap.mpr ⟨image, mem_of_getElem? hi, hr⟩, hx⟩

/-! ## Section 4: The size of the signature -/

theorem chunkifyBlock_count {env : ChunkifyEnv} {hstart hsize : Nat} {c c' : ChunkState env.z}
    {d d' : Delta env.z} (h : chunkifyBlock env hstart hsize c d = .ok (c', d')) :
    d.hashcurentry < env.hashentries ∧ d'.hashcurentry = d.hashcurentry + 1 := by
  unfold chunkifyBlock at h
  obtain ⟨⟨sc, data, ndz2⟩, -, h⟩ := bind_ok h
  dsimp only at h
  split at h
  · cases h
  · obtain ⟨u, hassert, h⟩ := bind_ok h
    obtain ⟨⟨hash, sigmap2⟩, -, h⟩ := bind_ok h
    obtain ⟨p, -, h⟩ := bind_ok h
    obtain ⟨sigmap, -, h⟩ := bind_ok h
    cases h
    exact ⟨of_decide_eq_true (assert_ok hassert), rfl⟩

theorem blockLoop_count {env : ChunkifyEnv} (hb : 0 < env.hashblksize) {size start roffset : Nat}
    {c c' : ChunkState env.z} {d d' : Delta env.z} (hroffset : 0 < size → roffset = start % env.hashblksize)
    (hle : d.hashcurentry ≤ env.hashentries) (h : blockLoop env roffset start size c d = .ok (c', d')) :
    d'.hashcurentry = d.hashcurentry + (hashBlocks env.hashblksize start size).length ∧
      d'.hashcurentry ≤ env.hashentries := by
  induction size using Nat.strong_induction_on generalizing c d start roffset with
  | h size ih =>
    rw [blockLoop.eq_def] at h
    rcases Nat.eq_zero_or_pos size with rfl | hpos
    · rw [if_pos rfl] at h
      cases h
      rw [hashBlocks_zero]
      exact ⟨rfl, hle⟩
    have hmod := Nat.mod_lt start hb
    have hblock : blockSize env.hashblksize roffset size = _ := blockSize_eq hb (hroffset hpos)
    have haligned : 0 < size - min (env.hashblksize - start % env.hashblksize) size → _ :=
      hashBlocks_aligned hb
    have hsize : 0 < min (env.hashblksize - start % env.hashblksize) size := by omega
    rw [if_neg (by omega), hblock] at h
    rw [hashBlocks_cons hb hpos]
    generalize min (env.hashblksize - start % env.hashblksize) size = hsize' at *
    dsimp only at h
    rw [dif_neg (by omega)] at h
    obtain ⟨⟨c₁, d₁⟩, hchunkify, h⟩ := bind_ok h
    obtain ⟨hlt, hcount⟩ := chunkifyBlock_count hchunkify
    have hle₁ : d₁.hashcurentry ≤ env.hashentries := by omega
    obtain ⟨hcount', hle'⟩ := ih (size - hsize') (by omega) haligned hle₁ h
    rw [length_cons]
    exact ⟨by omega, hle'⟩

theorem endRange_count {env : ChunkifyEnv} (hb : 0 < env.hashblksize) {start size : Nat} {last : Bool}
    {d d' : Delta env.z} (hcount : d.hashcurentry ≤ env.hashentries) (c : ChunkState env.z)
    (h : (do
      let (c, d) ← blockLoop env (start % env.hashblksize) start size c d
      if last then
        let image ← finishChunk env c (addU32 env.maphi 1)
        return { d with cstate := none, file := d.file ++ [image] }
      else
        return { d with cstate := some c }) = .ok d') :
    d'.hashcurentry = d.hashcurentry + (hashBlocks env.hashblksize start size).length ∧
      d'.hashcurentry ≤ env.hashentries := by
  obtain ⟨⟨c', d₁⟩, hloop, h⟩ := bind_ok h
  have hcounts := blockLoop_count hb (fun _ => rfl) hcount hloop
  dsimp only at h
  split at h
  · obtain ⟨image, -, h⟩ := bind_ok h
    cases h
    exact hcounts
  · cases h
    exact hcounts

theorem chunkify_count {env : ChunkifyEnv} (hb : 0 < env.hashblksize)
    {range : NdzRange NdzHashdata} (hle : range.start ≤ range.last) (h64 : range.last + 1 < 2 ^ 64)
    {next : List (NdzRange NdzHashdata)} {d d' : Delta env.z}
    (hcount : d.hashcurentry ≤ env.hashentries) (h : chunkify env range next d = .ok d') :
    d'.hashcurentry = d.hashcurentry +
        (hashBlocks env.hashblksize range.start (range.last + 1 - range.start)).length ∧
      d'.hashcurentry ≤ env.hashentries := by
  have hsize : subU64 (addU64 range.last 1) range.start = range.last + 1 - range.start := by
    rw [addU64_of_lt (by omega), subU64_of_le (by omega) (by omega)]
  unfold chunkify at h
  dsimp only at h
  rw [hsize] at h
  split at h
  · obtain ⟨c, -, h⟩ := bind_ok h
    exact endRange_count hb hcount c h
  · obtain ⟨c, -, h⟩ := bind_ok h
    exact endRange_count hb hcount c h

theorem makeDelta_count {env : ChunkifyEnv} (hb : 0 < env.hashblksize)
    {dmap : NdzRangemap NdzHashdata} (hs : ∀ r ∈ dmap.ranges, r.start ≤ r.last)
    (h64 : ∀ r ∈ dmap.ranges, r.last + 1 < 2 ^ 64) {ndz2 : ImageFile}
    {sigmap2 : NdzRangemap NdzHashdata} {d : Delta env.z} (h : makeDelta env dmap ndz2 sigmap2 = .ok d) :
    (mapBlocks env.hashblksize dmap.ranges).length ≤ env.hashentries := by
  have hiter : ∀ (ranges : List (NdzRange NdzHashdata)) (d d' : Delta env.z),
      (∀ r ∈ ranges, r ∈ dmap.ranges) → d.hashcurentry ≤ env.hashentries →
      iterateFrom (chunkify env) ranges d = .ok d' →
      d.hashcurentry + (mapBlocks env.hashblksize ranges).length ≤ env.hashentries := by
    intro ranges
    induction ranges with
    | nil =>
      intro d d' _ hle _
      exact hle
    | cons range next ih =>
      intro d d' hmem hle h
      obtain ⟨d₁, hchunkify, h⟩ := bind_ok h
      have hr := hmem range mem_cons_self
      obtain ⟨hcount, hle'⟩ := chunkify_count hb (hs range hr) (h64 range hr) hle hchunkify
      have := ih d₁ d' (fun r hr => hmem r (mem_cons_of_mem _ hr)) hle' h
      have hcons : mapBlocks env.hashblksize (range :: next) =
          hashBlocks env.hashblksize range.start (range.last + 1 - range.start) ++
            mapBlocks env.hashblksize next := rfl
      rw [hcons, length_append]
      omega
  have := hiter dmap.ranges _ d (fun r hr => hr) (Nat.zero_le _) h
  simpa using this

/-! ## Section 5: A small image -/

/-- A block of data behind its length. -/
def storedBlock (buf : List Byte) : List Byte :=
  1 :: BitVec.ofNat 8 buf.length :: BitVec.ofNat 8 (buf.length / 256) ::
    BitVec.ofNat 8 (buf.length / 65536) :: buf

/-- The blocks of some data up to the end mark. -/
def inflateStored (data : List Byte) : Option (List Byte) :=
  match data with
  | mark :: a :: b :: c :: rest =>
    if mark = 1 then
      let n := a.toNat + 256 * b.toNat + 65536 * c.toNat
      (inflateStored (rest.drop n)).map fun out => rest.take n ++ out
    else
      some []
  | mark :: _ => if mark = 0 then some [] else none
  | [] => none
termination_by data.length
decreasing_by
  simp only [length_cons, length_drop]
  omega

/-- A compressor that stores its input. -/
def storeZlib : Zlib where
  Stream := Unit
  deflateInit := ()
  deflate _ buf _ := if buf.length < 2 ^ 24 then some ((), storedBlock buf, 0) else none
  finish _ _ := some [0]
  inflate := inflateStored

theorem inflateStored_block {buf : List Byte} (h : buf.length < 2 ^ 24) (rest : List Byte) :
    inflateStored (storedBlock buf ++ rest) = (inflateStored rest).map (buf ++ ·) := by
  have hn : (BitVec.ofNat 8 buf.length).toNat + 256 * (BitVec.ofNat 8 (buf.length / 256)).toNat +
      65536 * (BitVec.ofNat 8 (buf.length / 65536)).toNat = buf.length := by
    simp only [BitVec.toNat_ofNat]
    omega
  unfold storedBlock
  rw [cons_append, cons_append, cons_append, cons_append, inflateStored, if_pos rfl]
  simp only [hn, take_left, drop_left]

theorem inflateStored_end (rest : List Byte) : inflateStored (0 :: rest) = some [] := by
  match rest with
  | [] => simp [inflateStored]
  | [_] => simp [inflateStored]
  | [_, _] => simp [inflateStored]
  | a :: b :: c :: rest =>
    rw [inflateStored, if_neg (by decide)]

theorem inflateStored_compressed {stream : storeZlib.Stream} {input output : List Byte}
    (h : storeZlib.Compressed stream input output) {rest out : List Byte}
    (hrest : inflateStored rest = some out) : inflateStored (output ++ rest) = some (input ++ out) := by
  induction h generalizing rest out with
  | init => exact hrest
  | append h hdeflate hroom ih =>
    rename_i buf block avail
    have hdeflate' : (if buf.length < 2 ^ 24 then some ((), storedBlock buf, 0) else none) =
        some (_, block, 0) := hdeflate
    split at hdeflate'
    · rename_i hlt
      cases hdeflate'
      have hblock := inflateStored_block hlt rest
      rw [hrest] at hblock
      rw [append_assoc, ih hblock, append_assoc]
    · cases hdeflate'

theorem lawful_storeZlib : storeZlib.Lawful where
  deflate _ buf avail hroom hmax := by
    have hc := chunk_constants
    refine ⟨(), storedBlock buf, if_pos (by omega), ?_⟩
    unfold storedBlock
    simp only [length_cons]
    omega
  finish h avail _ := by
    refine ⟨[0], rfl, by decide, ?_⟩
    intro rest
    have hend := inflateStored_compressed h (inflateStored_end rest)
    rw [append_nil] at hend
    rw [append_assoc]
    exact hend

def twoSectors (disk : Nat → Byte) : ImageFile where
  rangemap :=
    { ranges := [⟨0, 1, some 1⟩], hint := 0, loaddr := 0, hiaddr := 1, gen := 1, entries := 1
      sectors := 2 }
  chunkmap := [⟨0, 2⟩]
  inflated _ := some (readSectors disk 0 2)
  chunkobj := none
  chunksect := 0

theorem ready_twoSectors (disk : Nat → Byte) : (twoSectors disk).Ready disk := by
  have hsplit : ∀ {pre post : List (NdzRange Nat)} {r : NdzRange Nat},
      (twoSectors disk).rangemap.ranges = pre ++ r :: post →
        pre = [] ∧ r = ⟨0, 1, some 1⟩ ∧ post = [] := by
    intro pre post r h
    have hlist : [(⟨0, 1, some 1⟩ : NdzRange Nat)] = pre ++ r :: post := h
    cases pre with
    | nil =>
      obtain ⟨rfl, rfl⟩ := List.cons.inj hlist
      exact ⟨rfl, rfl, rfl⟩
    | cons p pre => simp at hlist
  constructor
  · constructor
    · exact ⟨by simp [twoSectors], by simp [twoSectors]⟩
    · simp [twoSectors]
    · simp [twoSectors]
    · simp [twoSectors]
    · intro pre r r' post h
      have := (hsplit h).2.2
      cases this
    · intro pre r post c h hc _
      obtain ⟨rfl, rfl, rfl⟩ := hsplit h
      obtain rfl : c = 0 := by simpa using hc
      exact ⟨by simp [twoSectors, chunkAhead], ⟨0, 2⟩, rfl, by simp, by simp, by simp⟩
  · intro chunk h
    cases h

/-- Make a delta image of some hash block size, with room for some hashes. -/
def smallEnv (hashblksize hashentries : Nat) : ChunkifyEnv where
  z := storeZlib
  ndz :=
    { sectsize := SECSIZE, relocdata := none, reloclo := NDZ_HIADDR, relochi := NDZ_LOADDR
      hashmap := none }
  maphi := 1
  hashentries := hashentries
  hashblksize := hashblksize
  hashlen := 1
  hashData _ := [0]

theorem relocsOk_smallEnv (hashblksize hashentries : Nat) : (smallEnv hashblksize hashentries).ndz.RelocsOk where
  sorted := List.Pairwise.nil
  bounds := by simp [smallEnv, NdzFile.relocs]
  fits := by simp [smallEnv, NdzFile.relocs]

/-- Both sectors have changed. -/
def twoChanged : NdzRangemap NdzHashdata where
  ranges := [⟨0, 1, none⟩]
  hint := 0
  loaddr := 0
  hiaddr := 1
  gen := 1
  entries := 1
  sectors := 2

theorem inv_twoChanged : twoChanged.Inv where
  sorted := ⟨by simp [twoChanged], by simp [twoChanged]⟩
  within := by simp [twoChanged]
  hiaddr := by
    show (1 : Nat) < 2 ^ 64
    decide
  entries := rfl
  sectors := rfl
  sectors_lt := by
    show (2 : Nat) < 2 ^ 64
    decide

theorem get_twoChanged {x : Nat} (h : twoChanged.get x ≠ none) : x ≤ 1 := by
  by_contra hx
  apply h
  rw [NdzRangemap.get, get_eq_none_iff]
  intro r hr hin
  obtain rfl : r = ⟨0, 1, none⟩ := by simpa [twoChanged] using hr
  have := hin.2
  simp only at this
  omega

theorem has_twoSectors (disk : Nat → Byte) {x : Nat} (h : x ≤ 1) : (twoSectors disk).Has x :=
  ⟨⟨0, 1, some 1⟩, by simp [twoSectors], by simpa [In] using h⟩

theorem blocks_twoChanged :
    mapBlocks 128 twoChanged.ranges = [⟨0, 2⟩] ∧
      mapBlocks 1 twoChanged.ranges = [⟨0, 1⟩, ⟨1, 1⟩] := by
  constructor
  · unfold mapBlocks twoChanged
    rw [flatMap_singleton, hashBlocks_cons (by decide) (by decide)]
    simp [hashBlocks_zero]
  · unfold mapBlocks twoChanged
    rw [flatMap_singleton, hashBlocks_cons (by decide) (by decide)]
    simp only
    rw [hashBlocks_cons (by decide) (by decide)]
    simp [hashBlocks_zero]

/-! ## Section 6: The delta image encodes the delta -/

end Emulab.Imagezip
