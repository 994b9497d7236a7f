import Emulab.Imagezip.RangeWalk

/-! # Relocations

  Some sectors of an image hold absolute block numbers. Where they are is said
  by the relocations, which follow the regions in the header of a chunk. An
  image file in memory has an array of those of all its chunks.
-/

namespace Emulab.Imagezip

open MachineInt Function List

/-! ## Section 1: Image files -/

structure BlockReloc where
  type : Nat
  sector : Nat
  sectoff : Nat
  size : Nat
deriving DecidableEq, Repr

/-- A hash of a range, and the chunk that the range begins in. -/
structure NdzHashdata where
  chunkno : Nat
  hashlen : Nat
  hash : List Byte
deriving DecidableEq

/-- What is used here of `struct ndz_file`. -/
structure NdzFile where
  sectsize : Nat
  /-- The array of relocations; `none` is a `NULL` pointer. -/
  relocdata : Option (List BlockReloc)
  reloclo : Nat
  relochi : Nat
  hashmap : Option (NdzRangemap NdzHashdata)

def NdzFile.relocs (ndz : NdzFile) : List BlockReloc := ndz.relocdata.getD []

def NdzFile.relocentries (ndz : NdzFile) : Nat := ndz.relocs.length

def ndzRelocInit (ndz : NdzFile) : NdzFile :=
  { ndz with relocdata := none, reloclo := NDZ_HIADDR, relochi := NDZ_LOADDR }

/-! ## Section 2: Chunk headers -/

abbrev COMPRESSED_V1 : Nat := 0x69696969

abbrev COMPRESSED_V2 : Nat := COMPRESSED_V1 + 1

abbrev COMPRESSED_V3 : Nat := COMPRESSED_V1 + 2

abbrev DEFAULTREGIONSIZE : Nat := 4096

/-- The header of a chunk, and the words that follow it in the chunk. -/
structure Blockhdr where
  magic : Nat
  size : Nat
  blockindex : Nat
  regionsize : Nat
  regioncount : Nat
  firstsect : Nat
  lastsect : Nat
  reloccount : Nat
  table : Nat → Nat

/-- Words of a region in the table. -/
abbrev REGIONWORDS : Nat := 2

/-- Words of a relocation in the table. -/
abbrev RELOCWORDS : Nat := 4

/-- Region `i` of a table. -/
def regionAt (table : Nat → Nat) (i : Nat) : Range :=
  ⟨table (REGIONWORDS * i), table (REGIONWORDS * i + 1)⟩

/-- The regions of a chunk. They are in front of the relocations in the table. -/
def Blockhdr.regions (hdr : Blockhdr) : List Range :=
  (List.range hdr.regioncount).map (regionAt hdr.table)

def Blockhdr.setRegion (hdr : Blockhdr) (i : Nat) (region : Range) : Blockhdr :=
  { hdr with
    table := update (update hdr.table (REGIONWORDS * i) region.start) (REGIONWORDS * i + 1) region.size }

/-- The relocation at a word of the table. -/
def relocAt (table : Nat → Nat) (pos : Nat) : BlockReloc :=
  { type := table pos, sector := table (pos + 1), sectoff := table (pos + 2), size := table (pos + 3) }

/-- Write a relocation to a word of the table. -/
def setReloc (table : Nat → Nat) (pos : Nat) (reloc : BlockReloc) : Nat → Nat :=
  update (update (update (update table pos reloc.type)
    (pos + 1) reloc.sector) (pos + 2) reloc.sectoff) (pos + 3) reloc.size

/-- The relocations from a word of the table on. -/
def relocsAt (table : Nat → Nat) (pos count : Nat) : List BlockReloc :=
  (List.range count).map fun i => relocAt table (pos + RELOCWORDS * i)

/-! ## Section 3: Reading and writing -/

/-- The loop of `ndz_reloc_get`: the bounds after the relocations of a chunk. -/
def relocBounds : List BlockReloc → Nat × Nat → Except Failure (Nat × Nat)
  | [], bounds => .ok bounds
  | chunkreloc :: relocs, (reloclo, relochi) => do
    let reloclo := if reloclo = NDZ_HIADDR then chunkreloc.sector else reloclo
    assert (reloclo ≤ chunkreloc.sector)
    let relochi := if chunkreloc.sector > relochi then chunkreloc.sector else relochi
    relocBounds relocs (reloclo, relochi)

/-- Add the relocations of a chunk, which begin at word `buf` of its table. -/
def ndzRelocGet (ndz : NdzFile) (hdr : Blockhdr) (buf : Nat) : Except Failure NdzFile :=
  if hdr.magic < COMPRESSED_V2 ∨ hdr.reloccount = 0 then .ok ndz
  else do
    let relocs := relocsAt hdr.table buf hdr.reloccount
    let (reloclo, relochi) ← relocBounds relocs (ndz.reloclo, ndz.relochi)
    return { ndz with relocdata := some (ndz.relocs ++ relocs), reloclo := reloclo, relochi := relochi }

/-- The loop of `ndz_reloc_put`. -/
def relocPutLoop (ndz : NdzFile) (firstsect lastsect : Nat) :
    List BlockReloc → Nat → (Nat → Nat) → Except Failure (Nat → Nat)
  | [], _, table => .ok table
  | relocdata :: relocs, chunkreloc, table => do
    assert (addU32 relocdata.sectoff relocdata.size ≤ ndz.sectsize)
    if relocdata.sector ≥ firstsect ∧ relocdata.sector < lastsect then
      relocPutLoop ndz firstsect lastsect relocs (chunkreloc + RELOCWORDS) (setReloc table chunkreloc relocdata)
    else
      relocPutLoop ndz firstsect lastsect relocs chunkreloc table

/-- Add the relocations that apply to a chunk from word `buf` of its table on. -/
def ndzRelocPut (ndz : NdzFile) (hdr : Blockhdr) (buf : Nat) : Except Failure Blockhdr :=
  if ndz.relocentries = 0 ∨ hdr.firstsect > ndz.relochi ∨ hdr.lastsect ≤ ndz.reloclo then .ok hdr
  else do
    let table ← relocPutLoop ndz hdr.firstsect hdr.lastsect ndz.relocs buf hdr.table
    return { hdr with table := table }

/-- The loop of `ndz_reloc_inrange`. -/
def relocInrangeLoop (ndz : NdzFile) (addr eaddr : Nat) : List BlockReloc → Nat → Except Failure Nat
  | [], nreloc => .ok nreloc
  | relocdata :: relocs, nreloc => do
    assert (addU32 relocdata.sectoff relocdata.size ≤ ndz.sectsize)
    if relocdata.sector > eaddr then
      .ok nreloc
    else if relocdata.sector ≥ addr ∧ relocdata.sector ≤ eaddr then
      relocInrangeLoop ndz addr eaddr relocs (nreloc + 1)
    else
      relocInrangeLoop ndz addr eaddr relocs nreloc

/-- The number of relocations in a range, or to the end if the size is zero. -/
def ndzRelocInrange (ndz : NdzFile) (addr size : Nat) : Except Failure Nat :=
  let eaddr :=
    if size = 0 then if ndz.relochi > addr then ndz.relochi else addr
    else subU64 (addU64 addr size) 1
  if ndz.relocentries = 0 ∨ addr > ndz.relochi ∨ eaddr < ndz.reloclo then .ok 0
  else relocInrangeLoop ndz addr eaddr ndz.relocs 0

/-- Where `imageunzip` finds the relocations of a chunk. -/
def getrelocinfo (hdr : Blockhdr) : List BlockReloc :=
  relocsAt hdr.table (REGIONWORDS * hdr.regioncount) hdr.reloccount

/-! ## Section 4: Relocations in a range -/

/-- The relocations of a file are in the order of their sectors, as
    `ndz_reloc_get` should add them and as is assumed elsewhere, within the
    bounds that it keeps, and each of them lies in its sector. -/
structure NdzFile.RelocsOk (ndz : NdzFile) : Prop where
  sorted : ndz.relocs.Pairwise fun r r' => r.sector ≤ r'.sector
  bounds : ∀ r ∈ ndz.relocs, ndz.reloclo ≤ r.sector ∧ r.sector ≤ ndz.relochi
  fits : ∀ r ∈ ndz.relocs, addU32 r.sectoff r.size ≤ ndz.sectsize

theorem relocInrangeLoop_eq {ndz : NdzFile} {addr eaddr : Nat} {relocs : List BlockReloc}
    (hsorted : relocs.Pairwise fun r r' => r.sector ≤ r'.sector)
    (hfits : ∀ r ∈ relocs, addU32 r.sectoff r.size ≤ ndz.sectsize) (nreloc : Nat) :
    relocInrangeLoop ndz addr eaddr relocs nreloc =
      .ok (nreloc + (relocs.filter fun r => addr ≤ r.sector ∧ r.sector ≤ eaddr).length) := by
  induction relocs generalizing nreloc with
  | nil => rfl
  | cons r relocs ih =>
    obtain ⟨hall, hrest⟩ := pairwise_cons.mp hsorted
    have ih := ih hrest fun r' hr' => hfits r' (mem_cons_of_mem _ hr')
    unfold relocInrangeLoop
    rw [decide_eq_true (hfits r mem_cons_self)]
    simp only [assert_true, bind, Except.bind]
    by_cases hgt : r.sector > eaddr
    · -- so are all that follow
      have hnone : (r :: relocs).filter (fun r => addr ≤ r.sector ∧ r.sector ≤ eaddr) = [] := by
        rw [filter_eq_nil_iff]
        intro r' hr'
        have : r.sector ≤ r'.sector := by
          rcases mem_cons.mp hr' with rfl | hr'
          · exact le_rfl
          · exact hall r' hr'
        simp only [decide_eq_true_eq]
        omega
      rw [if_pos hgt, hnone]
      rfl
    · rw [if_neg hgt]
      by_cases hin : r.sector ≥ addr ∧ r.sector ≤ eaddr
      · rw [if_pos hin, ih, filter_cons_of_pos (by simpa using hin), length_cons]
        congr 1
        omega
      · rw [if_neg hin, ih, filter_cons_of_neg (by simpa using hin)]

/-- The relocations in a range are counted. -/
theorem ndzRelocInrange_eq {ndz : NdzFile} (hok : ndz.RelocsOk) {addr size : Nat}
    (hsize : 0 < size) (haddr : addr + size ≤ 2 ^ 64) :
    ndzRelocInrange ndz addr size = .ok
      (ndz.relocs.filter fun r => addr ≤ r.sector ∧ r.sector ≤ addr + size - 1).length := by
  have headdr : subU64 (addU64 addr size) 1 = addr + size - 1 := by
    simp only [addU64, subU64]
    omega
  unfold ndzRelocInrange
  simp only [if_neg (by omega : ¬ size = 0), headdr]
  by_cases hskip : ndz.relocentries = 0 ∨ addr > ndz.relochi ∨ addr + size - 1 < ndz.reloclo
  · have hnone : ndz.relocs.filter (fun r => addr ≤ r.sector ∧ r.sector ≤ addr + size - 1) = [] := by
      rw [filter_eq_nil_iff]
      intro r hr
      have := hok.bounds r hr
      have := length_pos_of_mem hr
      unfold NdzFile.relocentries at hskip
      simp only [decide_eq_true_eq]
      omega
    rw [if_pos hskip, hnone]
    rfl
  · rw [if_neg hskip, relocInrangeLoop_eq hok.sorted hok.fits, Nat.zero_add]

/-! ## Section 5: Relocations of a chunk -/

@[simp] theorem relocsAt_zero (table : Nat → Nat) (pos : Nat) : relocsAt table pos 0 = [] := rfl

theorem relocsAt_succ (table : Nat → Nat) (pos count : Nat) :
    relocsAt table pos (count + 1) = relocAt table pos :: relocsAt table (pos + RELOCWORDS) count := by
  unfold relocsAt
  rw [range_succ_eq_map, map_cons, map_map, Nat.mul_zero, Nat.add_zero]
  congr 1
  apply map_congr_left
  intro i _
  show relocAt table (pos + RELOCWORDS * (i + 1)) = relocAt table (pos + RELOCWORDS + RELOCWORDS * i)
  rw [Nat.mul_succ, Nat.add_assoc, Nat.add_comm (RELOCWORDS * i)]

theorem setReloc_of_lt {table : Nat → Nat} {pos w : Nat} {reloc : BlockReloc} (h : w < pos) :
    setReloc table pos reloc w = table w := by
  unfold setReloc
  simp (disch := omega) only [update_of_ne]

theorem relocAt_setReloc (table : Nat → Nat) (pos : Nat) (reloc : BlockReloc) :
    relocAt (setReloc table pos reloc) pos = reloc := by
  simp [relocAt, setReloc, update]

theorem relocAt_congr {table table' : Nat → Nat} {pos : Nat}
    (h : ∀ w, w < pos + RELOCWORDS → table w = table' w) : relocAt table pos = relocAt table' pos := by
  have hwords : RELOCWORDS = 4 := rfl
  unfold relocAt
  rw [h pos (by omega), h (pos + 1) (by omega), h (pos + 2) (by omega), h (pos + 3) (by omega)]

/-- The relocations of `[firstsect, lastsect)`. -/
def relocsBetween (relocs : List BlockReloc) (firstsect lastsect : Nat) : List BlockReloc :=
  relocs.filter fun r => firstsect ≤ r.sector ∧ r.sector < lastsect

theorem relocPutLoop_spec {ndz : NdzFile} {firstsect lastsect : Nat} {relocs : List BlockReloc}
    (hfits : ∀ r ∈ relocs, addU32 r.sectoff r.size ≤ ndz.sectsize) (pos : Nat) (table : Nat → Nat) :
    ∃ table', relocPutLoop ndz firstsect lastsect relocs pos table = .ok table' ∧
      (∀ w, w < pos → table' w = table w) ∧
      relocsAt table' pos (relocsBetween relocs firstsect lastsect).length =
        relocsBetween relocs firstsect lastsect := by
  induction relocs generalizing pos table with
  | nil => exact ⟨table, rfl, fun _ _ => rfl, rfl⟩
  | cons r relocs ih =>
    have ih := ih fun r' hr' => hfits r' (mem_cons_of_mem _ hr')
    unfold relocPutLoop
    rw [decide_eq_true (hfits r mem_cons_self)]
    simp only [assert_true, bind, Except.bind]
    by_cases hin : r.sector ≥ firstsect ∧ r.sector < lastsect
    · obtain ⟨table', hloop, hbelow, hread⟩ := ih (pos + RELOCWORDS) (setReloc table pos r)
      refine ⟨table', by rw [if_pos hin]; exact hloop, ?_, ?_⟩
      · intro w hw
        rw [hbelow w (by omega), setReloc_of_lt hw]
      · have hfilter : relocsBetween (r :: relocs) firstsect lastsect =
            r :: relocsBetween relocs firstsect lastsect :=
          filter_cons_of_pos (by simpa using hin)
        rw [hfilter, length_cons, relocsAt_succ, hread, relocAt_congr hbelow, relocAt_setReloc]
    · obtain ⟨table', hloop, hbelow, hread⟩ := ih pos table
      have hfilter : relocsBetween (r :: relocs) firstsect lastsect = relocsBetween relocs firstsect lastsect :=
        filter_cons_of_neg (by simpa using hin)
      exact ⟨table', by rw [if_neg hin]; exact hloop, hbelow, by rw [hfilter, hread]⟩

theorem ndzRelocPut_spec {ndz : NdzFile} (hok : ndz.RelocsOk) (hdr : Blockhdr) (buf : Nat) :
    ∃ table, ndzRelocPut ndz hdr buf = .ok { hdr with table := table } ∧ (∀ w, w < buf → table w = hdr.table w) ∧
      relocsAt table buf (relocsBetween ndz.relocs hdr.firstsect hdr.lastsect).length =
        relocsBetween ndz.relocs hdr.firstsect hdr.lastsect := by
  unfold ndzRelocPut
  by_cases hskip : ndz.relocentries = 0 ∨ hdr.firstsect > ndz.relochi ∨ hdr.lastsect ≤ ndz.reloclo
  · have hnone : relocsBetween ndz.relocs hdr.firstsect hdr.lastsect = [] := by
      unfold relocsBetween
      rw [filter_eq_nil_iff]
      intro r hr
      have := hok.bounds r hr
      have := length_pos_of_mem hr
      unfold NdzFile.relocentries at hskip
      simp only [decide_eq_true_eq]
      omega
    rw [if_pos hskip, hnone]
    exact ⟨hdr.table, rfl, fun _ _ => rfl, rfl⟩
  · obtain ⟨table, hloop, hbelow, hread⟩ := relocPutLoop_spec hok.fits buf hdr.table
    rw [if_neg hskip, hloop]
    exact ⟨table, rfl, hbelow, hread⟩

/-! ## Section 6: From the writer to the readers -/

/-- A chunk of a delta image, as its header describes it. -/
structure Chunk where
  firstsect : Nat
  lastsect : Nat
  regions : List Range

/-- The header as `initnewchunk` leaves it. -/
def initnewchunk (chunkno : Nat) : Blockhdr where
  magic := COMPRESSED_V3
  size := 0
  blockindex := chunkno
  regionsize := DEFAULTREGIONSIZE
  regioncount := 0
  firstsect := 0
  lastsect := 0
  reloccount := 0
  table := fun _ => 0

/-- The regions of a chunk in its table, from region `i` on. -/
def setRegions (hdr : Blockhdr) (i : Nat) : List Range → Blockhdr
  | [] => hdr
  | region :: regions => setRegions (hdr.setRegion i region) (i + 1) regions

/-- The header of a finished chunk, with its relocations: what `chunkify` does to
    it from its first region on. -/
def finishHeader (ndz : NdzFile) (chunkno : Nat) (chunk : Chunk) : Except Failure Blockhdr :=
  let hdr := setRegions (initnewchunk chunkno) 0 chunk.regions
  let hdr := { hdr with
    regioncount := chunk.regions.length
    firstsect := chunk.firstsect
    lastsect := chunk.lastsect }
  if ndz.relocentries > 0 then ndzRelocPut ndz hdr (REGIONWORDS * chunk.regions.length)
  else .ok hdr

/-- The headers of all chunks, the first one with number `chunkno`. -/
def finishHeaders (ndz : NdzFile) : Nat → List Chunk → Except Failure (List Blockhdr)
  | _, [] => .ok []
  | chunkno, chunk :: chunks => do
    let hdr ← finishHeader ndz chunkno chunk
    let hdrs ← finishHeaders ndz (chunkno + 1) chunks
    return hdr :: hdrs

/-- What `ndz_reloc_get` adds to a file that has no relocations yet. -/
def ndzRelocsOf (ndz : NdzFile) (hdr : Blockhdr) : Except Failure (List BlockReloc) := do
  let ndz ← ndzRelocGet (ndzRelocInit ndz) hdr (REGIONWORDS * hdr.regioncount)
  return ndz.relocs

/-- Both readers find in each header exactly the relocations of its chunk, and
    over all headers they find each relocation once. -/
def RoundTrip (ndz : NdzFile) (chunks : List Chunk) : Prop :=
  ∃ hdrs, finishHeaders ndz 0 chunks = .ok hdrs ∧
    (∀ hdr ∈ hdrs, getrelocinfo hdr = relocsBetween ndz.relocs hdr.firstsect hdr.lastsect ∧
      ndzRelocsOf ndz hdr = .ok (relocsBetween ndz.relocs hdr.firstsect hdr.lastsect)) ∧
    (hdrs.flatMap getrelocinfo).Perm ndz.relocs

variable {ndz : NdzFile}

theorem ndzRelocPut_reloccount {hdr hdr' : Blockhdr} {buf : Nat}
    (h : ndzRelocPut ndz hdr buf = .ok hdr') : hdr'.reloccount = hdr.reloccount := by
  unfold ndzRelocPut at h
  split at h
  · cases h
    rfl
  · obtain ⟨table, _, h⟩ := bind_ok h
    cases h
    rfl

theorem setRegions_reloccount (hdr : Blockhdr) (i : Nat) (regions : List Range) :
    (setRegions hdr i regions).reloccount = hdr.reloccount := by
  induction regions generalizing hdr i with
  | nil => rfl
  | cons region regions ih => exact ih _ _

theorem finishHeader_reloccount {chunkno : Nat} {chunk : Chunk} {hdr : Blockhdr}
    (h : finishHeader ndz chunkno chunk = .ok hdr) : hdr.reloccount = 0 := by
  have hregions : ({ setRegions (initnewchunk chunkno) 0 chunk.regions with
      regioncount := chunk.regions.length
      firstsect := chunk.firstsect
      lastsect := chunk.lastsect } : Blockhdr).reloccount = 0 :=
    setRegions_reloccount _ _ _
  unfold finishHeader at h
  simp only at h
  split at h
  · exact (ndzRelocPut_reloccount h).trans hregions
  · cases h
    exact hregions

theorem finishHeaders_reloccount {chunkno : Nat} {chunks : List Chunk} {hdrs : List Blockhdr}
    (h : finishHeaders ndz chunkno chunks = .ok hdrs) : ∀ hdr ∈ hdrs, hdr.reloccount = 0 := by
  induction chunks generalizing chunkno hdrs with
  | nil =>
    cases h
    simp
  | cons chunk chunks ih =>
    obtain ⟨hdr, hhdr, h⟩ := bind_ok h
    obtain ⟨hdrs', hhdrs, h⟩ := bind_ok h
    cases h
    intro hdr' hmem
    rcases mem_cons.mp hmem with rfl | hmem
    · exact finishHeader_reloccount hhdr
    · exact ih hhdrs hdr' hmem

theorem getrelocinfo_eq_nil {hdr : Blockhdr} (h : hdr.reloccount = 0) : getrelocinfo hdr = [] := by
  unfold getrelocinfo
  rw [h, relocsAt_zero]

theorem ndzRelocsOf_eq_nil {hdr : Blockhdr} (h : hdr.reloccount = 0) : ndzRelocsOf ndz hdr = .ok [] := by
  unfold ndzRelocsOf ndzRelocGet
  rw [if_pos (.inr h)]
  rfl

theorem finishHeaders_ok (hnil : ndz.relocs = []) (chunkno : Nat) (chunks : List Chunk) :
    ∃ hdrs, finishHeaders ndz chunkno chunks = .ok hdrs := by
  have hentries : ¬ ndz.relocentries > 0 := by
    unfold NdzFile.relocentries
    rw [hnil]
    exact lt_irrefl 0
  induction chunks generalizing chunkno with
  | nil => exact ⟨[], rfl⟩
  | cons chunk chunks ih =>
    obtain ⟨hdrs, hrest⟩ := ih (chunkno + 1)
    unfold finishHeaders finishHeader
    simp only [if_neg hentries, hrest]
    exact ⟨_, rfl⟩

/-- The readers find no relocations at all, so the round trip works only for images that have none. -/
theorem roundTrip_iff (ndz : NdzFile) (chunks : List Chunk) : RoundTrip ndz chunks ↔ ndz.relocs = [] := by
  constructor
  · rintro ⟨hdrs, hfinish, _, hperm⟩
    have hcount := finishHeaders_reloccount hfinish
    have hnil : hdrs.flatMap getrelocinfo = [] := by
      rw [flatMap_eq_nil_iff]
      intro hdr hmem
      exact getrelocinfo_eq_nil (hcount hdr hmem)
    rw [hnil] at hperm
    exact nil_perm.mp hperm
  · intro hnil
    obtain ⟨hdrs, hfinish⟩ := finishHeaders_ok hnil 0 chunks
    have hcount := finishHeaders_reloccount hfinish
    have hbetween : ∀ firstsect lastsect, relocsBetween ndz.relocs firstsect lastsect = [] := by
      intro firstsect lastsect
      rw [hnil]
      rfl
    refine ⟨hdrs, hfinish, ?_, ?_⟩
    · intro hdr hmem
      rw [hbetween, getrelocinfo_eq_nil (hcount hdr hmem), ndzRelocsOf_eq_nil (hcount hdr hmem)]
      exact ⟨rfl, rfl⟩
    · have hflat : hdrs.flatMap getrelocinfo = [] := by
        rw [flatMap_eq_nil_iff]
        intro hdr hmem
        exact getrelocinfo_eq_nil (hcount hdr hmem)
      rw [hflat, hnil]

/-- An image with a FreeBSD disklabel in its second sector. -/
def labelled : NdzFile where
  sectsize := SECSIZE
  relocdata := some [{ type := 1, sector := 1, sectoff := 0, size := 276 }]
  reloclo := 1
  relochi := 1
  hashmap := none

/-- A chunk of the first 64 sectors. -/
def wholeImage : Chunk :=
  { firstsect := 0, lastsect := 64, regions := [{ start := 0, size := 64 }] }

theorem relocsOk_labelled : labelled.RelocsOk :=
  ⟨by simp [NdzFile.relocs, labelled], by decide, by decide⟩

/-- The relocation is in the only chunk, but it is not read back. -/
theorem not_roundTrip_labelled : ¬ ∀ (ndz : NdzFile) (chunks : List Chunk),
    ndz.RelocsOk → (∃ lastsect, chunks.map Chunk.lastsect = [lastsect] ∧
      chunks.map Chunk.firstsect = [0] ∧ ∀ r ∈ ndz.relocs, r.sector < lastsect) →
    RoundTrip ndz chunks := by
  intro h
  obtain ⟨hdrs, hfinish, _, hperm⟩ :=
    h labelled [wholeImage] relocsOk_labelled ⟨64, rfl, rfl, by decide⟩
  have hnil : hdrs.flatMap getrelocinfo = [] := by
    rw [flatMap_eq_nil_iff]
    intro hdr hmem
    exact getrelocinfo_eq_nil (finishHeaders_reloccount hfinish hdr hmem)
  rw [hnil] at hperm
  exact absurd (nil_perm.mp hperm) (by decide)

end Emulab.Imagezip
