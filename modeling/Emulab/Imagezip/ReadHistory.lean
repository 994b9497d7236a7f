import Emulab.Imagezip.ReadRanges

/-! # Reading an image file, over all histories

  A file is opened, and `ndz_readdata` is called any number of times. The
  first call reads the ranges of the file. Each call leaves behind a chunk
  that is open at some sector, and the next one may go on with it, go back
  to the beginning of the chunk or open another one. None of this can be
  told from the results.
-/

namespace Emulab.Imagezip

open MachineInt IntervalMap Extent List

/-! ## Section 1: Files that are open -/

structure OpenFile where
  image : NdzImage
  ndz : NdzFile
  /-- The ranges of the file and its open chunk; `none` before the ranges have been read. -/
  file : Option ImageFile

/-- A file that has just been opened. -/
def ndzOpen (image : NdzImage) : OpenFile where
  image := image
  ndz := ndzRelocInit { sectsize := SECSIZE, relocdata := none, reloclo := 0, relochi := 0, hashmap := none }
  file := none

/-- A call of `ndz_readdata`. The buffer has room for the sectors. -/
structure ReadRequest where
  nsect : Nat
  sect : Nat
  room : nsect * SECSIZE < 2 ^ 64

/-- `ndz_readdata`, which reads the ranges if that has not been done yet. -/
def OpenFile.readdata (inflate : List Byte → Option (List Byte)) (f : OpenFile) (q : ReadRequest) :
    Except Failure (Nat × List Byte × OpenFile) :=
  match f.file with
  | none => do
    let s ← ndzReadranges f.image f.ndz
    let (count, buf, file) ←
      ndzReaddata (s.imageFile (f.image.inflated inflate)) q.nsect q.sect
    return (count, buf, { f with ndz := s.ndz, file := some file })
  | some file => do
    let (count, buf, file) ← ndzReaddata file q.nsect q.sect
    return (count, buf, { f with file := some file })

/-- Any number of calls, and what they return. -/
def OpenFile.readAll (inflate : List Byte → Option (List Byte)) :
    OpenFile → List ReadRequest → Except Failure (List (Nat × List Byte) × OpenFile)
  | f, [] => .ok ([], f)
  | f, q :: qs => do
    let (count, buf, f) ← f.readdata inflate q
    let (results, f) ← f.readAll inflate qs
    return ((count, buf) :: results, f)

/-! ## Section 2: What the calls return -/

/-- Sectors that the image has data for. -/
def NdzImage.Has (image : NdzImage) (x : Nat) : Prop :=
  ∃ c ∈ image.chunks, ∃ reg ∈ c.hdr.regions, reg.Has x

theorem NdzImage.has_iff {image : NdzImage} {inflate : List Byte → Option (List Byte)}
    {disk : Nat → Byte} (hwf : image.WellFormed inflate disk) {file : ImageFile}
    (hranges : file.rangemap.ranges = fileRanges 0 image.chunks) (x : Nat) : file.Has x ↔ image.Has x := by
  unfold ImageFile.Has NdzImage.Has
  rw [hranges]
  constructor
  · intro h
    obtain ⟨r, hr, hin⟩ := h
    obtain ⟨pre, c, post, hsplit, hmem⟩ := mem_fileRanges.mp hr
    obtain ⟨reg, hreg, rfl⟩ := mem_chunkRanges.mp hmem
    have hc : c ∈ image.chunks := by simp [hsplit]
    have hpos := hwf.regions.nonempty reg (mem_flatMap.mpr ⟨c, hc, hreg⟩)
    obtain ⟨hlo, hhi⟩ := hin
    dsimp only at hlo hhi
    refine ⟨c, hc, reg, hreg, hlo, ?_⟩
    unfold stop at hhi ⊢
    omega
  · intro h
    obtain ⟨c, hc, reg, hreg, hlo, hhi⟩ := h
    obtain ⟨pre, post, hsplit⟩ := append_of_mem hc
    refine ⟨⟨reg.start, reg.stop - 1, some (0 + pre.length + 1)⟩, ?_, hlo, ?_⟩
    · exact mem_fileRanges.mpr ⟨pre, c, post, hsplit, mem_chunkRanges.mpr ⟨reg, hreg, rfl⟩⟩
    · dsimp only
      omega

/-- What a call returns: the contiguous sectors that the image has, up to the request, with their
    contents. -/
structure Answers (image : NdzImage) (disk : Nat → Byte) (q : ReadRequest)
    (result : Nat × List Byte) : Prop where
  count : Available image.Has q.sect q.nsect result.1
  data : result.2 = readSectors disk q.sect result.1

theorem Answers.unique {image : NdzImage} {disk : Nat → Byte} {q : ReadRequest}
    {result result' : Nat × List Byte} (h : Answers image disk q result)
    (h' : Answers image disk q result') : result = result' := by
  have hcount := h.count.unique h'.count
  have hdata : result.2 = result'.2 := by rw [h.data, h'.data, hcount]
  exact Prod.ext hcount hdata

/-- Between two calls the file is as it has been opened, or ready with the ranges of the image. -/
structure OpenFile.Between (f : OpenFile) (image : NdzImage)
    (inflate : List Byte → Option (List Byte)) (disk : Nat → Byte) : Prop where
  image_eq : f.image = image
  unread : f.file = none → f.ndz.reloclo = NDZ_HIADDR
  ready : ∀ file, f.file = some file → file.Ready disk ∧ file.rangemap.ranges = fileRanges 0 image.chunks

section calls

variable {image : NdzImage} {inflate : List Byte → Option (List Byte)} {disk : Nat → Byte}

theorem between_ndzOpen : (ndzOpen image).Between image inflate disk where
  image_eq := rfl
  unread _ := rfl
  ready _ hfile := by cases hfile

/-- **One call**, from whatever state the file is in. -/
theorem OpenFile.Between.readdata (hwf : image.WellFormed inflate disk) {f : OpenFile}
    (h : f.Between image inflate disk) (q : ReadRequest) :
    ∃ count buf f', f.readdata inflate q = .ok (count, buf, f') ∧
      Answers image disk q (count, buf) ∧ f'.Between image inflate disk := by
  -- a call on a file whose ranges have been read
  have hcall : ∀ file : ImageFile, file.Ready disk → file.rangemap.ranges = fileRanges 0 image.chunks →
      ∃ count file', ndzReaddata file q.nsect q.sect = .ok (count, readSectors disk q.sect count, file') ∧
        Answers image disk q (count, readSectors disk q.sect count) ∧ file'.Ready disk ∧
        file'.rangemap.ranges = fileRanges 0 image.chunks := by
    intro file hready hranges
    obtain ⟨count, file', hread, havail, hsame, hready'⟩ := ndzReaddata_available hready q.sect q.room
    have hhas := NdzImage.has_iff hwf hranges
    refine ⟨count, file', hread, ⟨⟨havail.le, ?_, ?_⟩, rfl⟩, hready', hsame.ranges.trans hranges⟩
    · intro x hlo hhi
      exact (hhas x).mp (havail.all x hlo hhi)
    · intro hlt hx
      exact havail.stop hlt ((hhas _).mpr hx)
  unfold OpenFile.readdata
  cases hfile : f.file with
  | none =>
    obtain ⟨s, hranges, heq, hready⟩ := ndzReadranges_spec hwf (h.unread hfile)
    obtain ⟨count, file', hread, hanswer, hready', heq'⟩ := hcall _ hready heq
    rw [h.image_eq]
    simp only [hranges, hread, bind, Except.bind]
    refine ⟨count, _, _, rfl, hanswer, rfl, fun hnone => (by cases hnone), ?_⟩
    intro file hsome
    obtain rfl := Option.some.inj hsome
    exact ⟨hready', heq'⟩
  | some file =>
    obtain ⟨hready, heq⟩ := h.ready file hfile
    obtain ⟨count, file', hread, hanswer, hready', heq'⟩ := hcall file hready heq
    simp only [hread, bind, Except.bind]
    refine ⟨count, _, _, rfl, hanswer, h.image_eq, fun hnone => (by cases hnone), ?_⟩
    intro file hsome
    obtain rfl := Option.some.inj hsome
    exact ⟨hready', heq'⟩

/-- **All calls.** -/
theorem OpenFile.Between.readAll (hwf : image.WellFormed inflate disk) {f : OpenFile}
    (h : f.Between image inflate disk) (qs : List ReadRequest) :
    ∃ results f', f.readAll inflate qs = .ok (results, f') ∧ List.Forall₂ (Answers image disk) qs results := by
  induction qs generalizing f with
  | nil => exact ⟨[], f, rfl, List.Forall₂.nil⟩
  | cons q qs ih =>
    obtain ⟨count, buf, f₁, hread, hanswer, hbetween⟩ := h.readdata hwf q
    obtain ⟨results, f', hrest, hanswers⟩ := ih hbetween
    refine ⟨(count, buf) :: results, f', ?_, List.Forall₂.cons hanswer hanswers⟩
    unfold OpenFile.readAll
    rw [hread]
    simp only [bind, Except.bind]
    rw [hrest]
    rfl

/-- A sequence of calls on a well-formed file fails no assertion. Each call returns the contiguous
    sectors that the image has, up to the request, with their contents; and that is what the same
    call returns on a file that has just been opened. -/
theorem readdata_history (hwf : image.WellFormed inflate disk) (qs : List ReadRequest) :
    ∃ results f, (ndzOpen image).readAll inflate qs = .ok (results, f) ∧
      List.Forall₂ (fun q result => Answers image disk q result ∧
        ∃ f₁, (ndzOpen image).readdata inflate q = .ok (result.1, result.2, f₁)) qs results := by
  obtain ⟨results, f, hrun, hanswers⟩ := between_ndzOpen.readAll hwf qs
  refine ⟨results, f, hrun, hanswers.imp ?_⟩
  intro q result hanswer
  obtain ⟨count, buf, f₁, hread, hfresh, -⟩ :=
    (@between_ndzOpen image inflate disk).readdata hwf q
  obtain rfl := hanswer.unique hfresh
  exact ⟨hanswer, f₁, hread⟩

end calls

/-- A chunk with two regions of zeros, and what `zlib` makes of them. -/
def zeroChunk : ChunkImage where
  hdr :=
    { magic := COMPRESSED_V2, size := 20, blockindex := 0, regionsize := DEFAULTREGIONSIZE
      regioncount := 2, firstsect := 0, lastsect := 8, reloccount := 0
      table := fun w => [0, 2, 5, 1].getD w 0 }
  data := [120, 94, 99, 96, 24, 5, 163, 96, 20, 140, 130, 81, 48, 18, 1, 0, 6, 0, 0, 1]

/-- `inflate` on the data of this chunk. -/
def inflateZeros (data : List Byte) : Option (List Byte) :=
  if data = zeroChunk.data then some (List.replicate 1536 0) else none

theorem readSectors_zeros (sect count : Nat) :
    readSectors (fun _ => 0) sect count = List.replicate (sectobytes count) 0 := by
  unfold readSectors readBytes
  rw [map_const', length_range]

theorem wellFormed_zeroChunk (size : Option Nat) :
    (NdzImage.mk [zeroChunk] size).WellFormed inflateZeros fun _ => 0 := by
  have hregions : zeroChunk.hdr.regions = [⟨0, 2⟩, ⟨5, 1⟩] := rfl
  have hall : ([zeroChunk].flatMap fun c => c.hdr.regions) = [⟨0, 2⟩, ⟨5, 1⟩] := rfl
  have hone : ∀ {pre post : List ChunkImage} {c : ChunkImage}, [zeroChunk] = pre ++ c :: post →
      pre = [] ∧ post = [] := by
    intro pre post c h
    have hlen := congrArg List.length h
    simp only [length_append, length_cons, length_nil] at hlen
    exact ⟨length_eq_zero_iff.mp (by omega), length_eq_zero_iff.mp (by omega)⟩
  constructor
  · intro c hc
    rw [mem_singleton.mp hc]
    decide
  · rw [hall]
    exact ⟨by decide, by decide⟩
  · intro c hc
    rw [mem_singleton.mp hc, hregions]
    decide
  · intro c hc _
    rw [mem_singleton.mp hc, hregions]
    decide
  · intro pre c post h _ p hp
    rw [(hone h).1] at hp
    cases hp
  · intro pre c mid c' post h
    have hpost := (hone h).2
    simp at hpost
  · exact List.Pairwise.nil
  · intro c hc
    rw [mem_singleton.mp hc, hregions]
    have hzeros : ([⟨0, 2⟩, ⟨5, 1⟩] : List Range).flatMap (fun reg =>
        readSectors (fun _ => 0) reg.start reg.size) = List.replicate 1536 0 := by
      simp only [flatMap_cons, flatMap_nil, append_nil, readSectors_zeros]
      rw [replicate_append_replicate]
      rfl
    rw [hzeros]
    exact if_pos rfl

/-- Requests that go forward, over the end of the data, backward, and where there are no data. -/
theorem readdata_history_zeros : ∃ results f, (ndzOpen ⟨[zeroChunk], some 4116⟩).readAll inflateZeros
      [⟨1, 5, by decide⟩, ⟨4, 1, by decide⟩, ⟨2, 0, by decide⟩, ⟨1, 3, by decide⟩] = .ok (results, f) ∧
    List.Forall₂ (fun q result => Answers ⟨[zeroChunk], some 4116⟩ (fun _ => 0) q result ∧
        ∃ f₁, (ndzOpen ⟨[zeroChunk], some 4116⟩).readdata inflateZeros q = .ok (result.1, result.2, f₁))
      [⟨1, 5, by decide⟩, ⟨4, 1, by decide⟩, ⟨2, 0, by decide⟩, ⟨1, 3, by decide⟩] results :=
  readdata_history (wellFormed_zeroChunk (some 4116)) _

end Emulab.Imagezip
