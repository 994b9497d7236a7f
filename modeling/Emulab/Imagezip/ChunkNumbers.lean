import Emulab.Imagezip.DeltaImage
import Emulab.Imagezip.HashmapDelta

/-! # Chunk numbers in a new signature

  While imagezip writes the chunks of an image, `hashmap_update_chunk` puts
  the number of each chunk into the regions of the new signature that start
  in it, with a flag on those that go on behind it. The chunks follow each
  other without gaps, so at the end every region of the image has a number,
  and the assertion about regions that began in an earlier chunk holds.
-/

namespace Emulab.Imagezip

open MachineInt Outcome Extent List

/-! ## Section 1: The pass over the chunks -/

/-- The loop of `hashmap_update_chunk`. Here `lsect` is the last sector of the chunk. -/
def updateLoop (ssect lsect chunkno : Nat) : List HashRegion → Except Failure (List HashRegion)
  | [] => .ok []
  | hreg :: rest =>
    let hrssect := hreg.region.start
    let hrlsect := subU32 (addU32 hrssect hreg.region.size) 1
    -- the range is all before the chunk
    if hrlsect < ssect then do
      .ok (hreg :: (← updateLoop ssect lsect chunkno rest))
    -- all after, the loop is left
    else if lsect < hrssect then
      .ok (hreg :: rest)
    -- it overlaps at the beginning, and an earlier chunk should have marked it
    else if hrssect < ssect then do
      assert (HASH_CHUNKDOESSPAN hreg.chunkno)
      .ok (hreg :: (← updateLoop ssect lsect chunkno rest))
    else if hrlsect ≤ lsect then do
      .ok ({ hreg with chunkno := chunkno } :: (← updateLoop ssect lsect chunkno rest))
    else do
      .ok ({ hreg with chunkno := HASH_CHUNKSETSPAN chunkno } :: (← updateLoop ssect lsect chunkno rest))

/-- Fill in the chunk number of the hash ranges that start in a chunk, and mark those that
    do not end in it. -/
def hashmapUpdateChunk (ssect lsect : Nat) (chunkno : Int) (nhinfo : Option HashInfo) :
    Except Failure (Option HashInfo) := do
  assert (0 ≤ chunkno)
  match nhinfo with
  | none => .ok none
  | some info =>
    .ok (some { info with
      regions := ← updateLoop ssect (subU32 lsect 1) (toUInt32 chunkno) info.regions })

/-- What a chunk header says about the place of the chunk; sectors are counted from the start
    of the image. -/
structure ChunkExtent where
  firstsect : Nat
  lastsect : Nat
  blockindex : Int

/-- The calls of `compress_image`, one for each chunk. -/
def updateChunks (inputminsec : Nat) (nhinfo : Option HashInfo) (chunks : List ChunkExtent) :
    Except Failure (Option HashInfo) :=
  chunks.foldlM (fun nhinfo blkhdr =>
    hashmapUpdateChunk (addU32 blkhdr.firstsect inputminsec) (addU32 blkhdr.lastsect inputminsec)
      blkhdr.blockindex nhinfo) nhinfo

/-! ## Section 2: Chunks that tile an image -/

/-- The chunks tile the sectors from `lo` to `hi`, in ascending order. -/
inductive Tiles : Nat → List ChunkExtent → Nat → Prop
  | done (lo : Nat) : Tiles lo [] lo
  | chunk {c : ChunkExtent} {chunks : List ChunkExtent} {hi : Nat}
      (hlt : c.firstsect < c.lastsect) (h : Tiles c.lastsect chunks hi) :
      Tiles c.firstsect (c :: chunks) hi

/-- A sector, counted from the start of the image, is in the chunk. -/
def ChunkExtent.Has (c : ChunkExtent) (x : Nat) : Prop := c.firstsect ≤ x ∧ x < c.lastsect

/-- A region has the number of the chunk of its first sector, and the flag exactly if its last
    sector is in a later chunk. -/
def Numbered (inputminsec : Nat) (chunks : List ChunkExtent) (hreg : HashRegion) : Prop :=
  ∃ earlier c later, chunks = earlier ++ c :: later ∧ c.Has (hreg.region.start - inputminsec) ∧
    HASH_CHUNKNO hreg.chunkno = c.blockindex.toNat ∧
    (HASH_CHUNKDOESSPAN hreg.chunkno = true ↔ ∃ c' ∈ later, c'.Has (hreg.region.stop - 1 - inputminsec))

/-- The regions of a signature of the sectors from `lo` to `hi`: not empty, and by their first sectors. -/
structure SignatureOf (lo hi : Nat) (regions : List HashRegion) : Prop where
  nonempty : ∀ r ∈ regions, 0 < r.region.size
  within : ∀ r ∈ regions, lo ≤ r.region.start ∧ r.region.stop ≤ hi
  sorted : regions.Pairwise fun r r' => r.region.start ≤ r'.region.start

variable {chunks : List ChunkExtent}

theorem Tiles.le {lo hi : Nat} (h : Tiles lo chunks hi) : lo ≤ hi := by
  induction h with
  | done lo => exact le_refl lo
  | chunk hlt _ ih => omega

theorem Tiles.exists_has {lo hi x : Nat} (h : Tiles lo chunks hi) : (∃ c ∈ chunks, c.Has x) ↔ lo ≤ x ∧ x < hi := by
  induction h with
  | done lo =>
    simp only [not_mem_nil, false_and, exists_false, false_iff]
    omega
  | @chunk c chunks hi hlt h ih =>
    have hle := h.le
    rw [exists_mem_cons_iff, ih]
    unfold ChunkExtent.Has
    omega

theorem Tiles.split {lo hi : Nat} {c : ChunkExtent} (h : Tiles lo chunks hi) (hc : c ∈ chunks) :
    ∃ earlier later, chunks = earlier ++ c :: later ∧ Tiles c.lastsect later hi := by
  induction h with
  | done lo => cases hc
  | @chunk c₀ chunks hi hlt h ih =>
    rcases mem_cons.mp hc with rfl | hc
    · exact ⟨[], chunks, rfl, h⟩
    · obtain ⟨earlier, later, rfl, hlater⟩ := ih hc
      exact ⟨c₀ :: earlier, later, rfl, hlater⟩

/-! ## Section 3: What one call does -/

/-- The region after the call for the chunk of the sectors from `ssect` to `lsect`. -/
def mark (ssect lsect chunkno : Nat) (hreg : HashRegion) : HashRegion :=
  if ssect ≤ hreg.region.start ∧ hreg.region.start ≤ lsect then
    { hreg with chunkno :=
        if hreg.region.stop ≤ lsect + 1 then chunkno else HASH_CHUNKSETSPAN chunkno }
  else
    hreg

@[simp] theorem mark_region (ssect lsect chunkno : Nat) (hreg : HashRegion) :
    (mark ssect lsect chunkno hreg).region = hreg.region := by
  unfold mark
  split
  · rfl
  · rfl

@[simp] theorem mark_hash (ssect lsect chunkno : Nat) (hreg : HashRegion) :
    (mark ssect lsect chunkno hreg).hash = hreg.hash := by
  unfold mark
  split
  · rfl
  · rfl

variable {hreg : HashRegion}

theorem mark_of_not {ssect lsect chunkno : Nat}
    (h : ¬(ssect ≤ hreg.region.start ∧ hreg.region.start ≤ lsect)) : mark ssect lsect chunkno hreg = hreg :=
  if_neg h

theorem mark_of_fits {ssect lsect chunkno : Nat} (h : ssect ≤ hreg.region.start ∧ hreg.region.start ≤ lsect)
    (hfits : hreg.region.stop ≤ lsect + 1) : mark ssect lsect chunkno hreg = { hreg with chunkno := chunkno } := by
  unfold mark
  rw [if_pos h, if_pos hfits]

theorem mark_of_spans {ssect lsect chunkno : Nat} (h : ssect ≤ hreg.region.start ∧ hreg.region.start ≤ lsect)
    (hspans : lsect + 1 < hreg.region.stop) :
    mark ssect lsect chunkno hreg = { hreg with chunkno := HASH_CHUNKSETSPAN chunkno } := by
  unfold mark
  rw [if_pos h, if_neg (by omega)]

/-- Marking does not change which sectors a signature is of. -/
theorem SignatureOf.mark {lo hi : Nat} {regions : List HashRegion} (h : SignatureOf lo hi regions)
    (ssect lsect chunkno : Nat) : SignatureOf lo hi (regions.map (mark ssect lsect chunkno)) where
  nonempty := by simpa using h.nonempty
  within := by simpa using h.within
  sorted := by simpa [pairwise_map] using h.sorted

/-- The loop passes the assertion if every region that began before the chunk and reaches into
    it has the flag. -/
theorem updateLoop_spec {lo hi ssect : Nat} {regions : List HashRegion}
    (h : SignatureOf lo hi regions) (hhi : hi < 2 ^ 32)
    (hspan : ∀ r ∈ regions, r.region.start < ssect → ssect < r.region.stop →
      HASH_CHUNKDOESSPAN r.chunkno = true) (lsect chunkno : Nat) :
    updateLoop ssect lsect chunkno regions = .ok (regions.map (mark ssect lsect chunkno)) := by
  induction regions with
  | nil => rfl
  | cons hreg rest ih =>
    have hsorted := pairwise_cons.mp h.sorted
    have hrest : SignatureOf lo hi rest :=
      ⟨fun r hr => h.nonempty r (mem_cons_of_mem _ hr),
        fun r hr => h.within r (mem_cons_of_mem _ hr), hsorted.2⟩
    have ih := ih hrest fun r hr => hspan r (mem_cons_of_mem _ hr)
    have hpos := h.nonempty hreg mem_cons_self
    obtain ⟨-, hstop⟩ := h.within hreg mem_cons_self
    have hstop_eq : hreg.region.stop = hreg.region.start + hreg.region.size := rfl
    have hlast : subU32 (addU32 hreg.region.start hreg.region.size) 1 = hreg.region.stop - 1 := by
      rw [addU32_of_lt (by omega), subU32_of_le (by omega) (by omega), hstop_eq]
    unfold updateLoop
    simp only [hlast, ih]
    rw [map_cons]
    split
    · -- all before
      rw [mark_of_not (by omega)]
      rfl
    · split
      · -- all after, and so is the rest, because it is sorted
        have hall : ∀ r ∈ rest, mark ssect lsect chunkno r = r := by
          intro r hr
          have := hsorted.1 r hr
          exact mark_of_not (by omega)
        rw [mark_of_not (by omega), map_congr_left hall, map_id']
      · split
        · -- an earlier chunk has the number
          have hflag := hspan hreg mem_cons_self (by assumption) (by omega)
          rw [mark_of_not (by omega), hflag]
          rfl
        · split
          · rw [mark_of_fits (by omega) (by omega)]
            rfl
          · rw [mark_of_spans (by omega) (by omega)]
            rfl

/-- The region begins in the chunk, and has its number and the flag that it needs. -/
def MarkedBy (inputminsec : Nat) (c : ChunkExtent) (hreg : HashRegion) : Prop :=
  c.Has (hreg.region.start - inputminsec) ∧ HASH_CHUNKNO hreg.chunkno = c.blockindex.toNat ∧
    (HASH_CHUNKDOESSPAN hreg.chunkno = true ↔ c.lastsect + inputminsec < hreg.region.stop)

/-- AtBoundary two calls: every region that begins before `pos` is marked. -/
structure MarkedUpTo (inputminsec : Nat) (passed : List ChunkExtent) (pos : Nat)
    (hreg : HashRegion) : Prop where
  marked : hreg.region.start < pos → ∃ c ∈ passed, MarkedBy inputminsec c hreg
  behind : ∀ c ∈ passed, c.lastsect + inputminsec ≤ pos

/-- **One chunk.** The call marks the regions that begin in the chunk. -/
theorem mark_upTo {inputminsec pos lsect : Nat} {passed : List ChunkExtent} {c : ChunkExtent}
    (h : MarkedUpTo inputminsec passed pos hreg)
    (hpos : c.firstsect + inputminsec = pos) (hlsect : c.lastsect + inputminsec = lsect + 1)
    (hlt : c.firstsect < c.lastsect) (hno : c.blockindex.toNat < 2 ^ 31) :
    MarkedUpTo inputminsec (passed ++ [c]) (lsect + 1) (mark pos lsect c.blockindex.toNat hreg) := by
  constructor
  · intro hstart
    rw [mark_region] at hstart
    by_cases hin : pos ≤ hreg.region.start
    · have hhas : c.Has (hreg.region.start - inputminsec) := by
        unfold ChunkExtent.Has
        omega
      have hc : c ∈ passed ++ [c] := by simp
      by_cases hstop : hreg.region.stop ≤ lsect + 1
      · obtain ⟨hnum, hflag⟩ := chunkno_nospan hno
        rw [mark_of_fits (by omega) hstop]
        refine ⟨c, hc, hhas, hnum, ?_⟩
        -- the region ends in the chunk, so it is not flagged
        rw [hflag]
        constructor
        · intro hfalse
          cases hfalse
        · intro hlt
          have hlt : c.lastsect + inputminsec < hreg.region.stop := hlt
          omega
      · obtain ⟨hnum, hflag⟩ := chunkno_setspan hno
        rw [mark_of_spans (by omega) (by omega)]
        refine ⟨c, hc, hhas, hnum, ?_⟩
        rw [hflag]
        constructor
        · intro _
          change c.lastsect + inputminsec < hreg.region.stop
          omega
        · intro _
          rfl
    · rw [mark_of_not (by omega)]
      obtain ⟨c', hc', hmarked⟩ := h.marked (by omega)
      exact ⟨c', mem_append_left _ hc', hmarked⟩
  · intro c' hc'
    rcases mem_append.mp hc' with hc' | hc'
    · have := h.behind c' hc'
      omega
    · rw [mem_singleton.mp hc']
      omega

/-- The chunks of `chunks` are left, and the sectors before them are behind. -/
structure AtBoundary (inputminsec lo hi : Nat) (passed : List ChunkExtent) (pos : Nat)
    (regions : List HashRegion) : Prop where
  signature : SignatureOf (lo + inputminsec) (hi + inputminsec) regions
  marked : ∀ r ∈ regions, MarkedUpTo inputminsec passed pos r

theorem AtBoundary.spans {inputminsec lo hi pos : Nat} {passed : List ChunkExtent}
    {regions : List HashRegion} (h : AtBoundary inputminsec lo hi passed pos regions) :
    ∀ r ∈ regions, r.region.start < pos → pos < r.region.stop → HASH_CHUNKDOESSPAN r.chunkno = true := by
  intro r hr hstart hstop
  obtain ⟨c, hc, -, -, hflag⟩ := (h.marked r hr).marked hstart
  have := (h.marked r hr).behind c hc
  exact hflag.mpr (by omega)

/-- **All chunks.** No call fails its assertion, and each region is marked by one of the
    chunks. Nothing else is changed. -/
theorem updateChunks_spec {inputminsec lo pos hi : Nat} {passed chunks : List ChunkExtent}
    {info : HashInfo} (h : AtBoundary inputminsec lo hi passed (pos + inputminsec) info.regions)
    (htiles : Tiles pos chunks hi) (hhi : hi + inputminsec < 2 ^ 32)
    (hno : ∀ c ∈ chunks, 0 ≤ c.blockindex ∧ c.blockindex < 2 ^ 31) :
    ∃ regions, updateChunks inputminsec (some info) chunks = .ok (some { info with regions := regions }) ∧
      AtBoundary inputminsec lo hi (passed ++ chunks) (hi + inputminsec) regions ∧
      regions.map (fun r => (r.region, r.hash)) = info.regions.map fun r => (r.region, r.hash) := by
  induction htiles generalizing info passed with
  | done pos =>
    rw [append_nil]
    exact ⟨info.regions, rfl, h, rfl⟩
  | @chunk c chunks hi hlt htiles ih =>
    have hle := htiles.le
    obtain ⟨hno₀, hno₁⟩ := hno c mem_cons_self
    have hu32 : toUInt32 c.blockindex = c.blockindex.toNat := by
      unfold toUInt32 toUnsigned
      omega
    have hfirst : addU32 c.firstsect inputminsec = c.firstsect + inputminsec := addU32_of_lt (by omega)
    have hlsect : subU32 (addU32 c.lastsect inputminsec) 1 = c.lastsect + inputminsec - 1 := by
      rw [addU32_of_lt (by omega), subU32_of_le (by omega) (by omega)]
    have hloop := updateLoop_spec h.signature hhi h.spans (c.lastsect + inputminsec - 1) c.blockindex.toNat
    have hstep : hashmapUpdateChunk (addU32 c.firstsect inputminsec)
        (addU32 c.lastsect inputminsec) c.blockindex (some info) =
        .ok (some { info with regions := info.regions.map (mark (c.firstsect + inputminsec)
          (c.lastsect + inputminsec - 1) c.blockindex.toNat) }) := by
      unfold hashmapUpdateChunk
      rw [hlsect, hu32, hfirst, decide_eq_true hno₀, assert_true]
      simp only [hloop]
      rfl
    have hnext : AtBoundary inputminsec lo hi (passed ++ [c]) (c.lastsect + inputminsec)
        (info.regions.map (mark (c.firstsect + inputminsec) (c.lastsect + inputminsec - 1)
          c.blockindex.toNat)) := by
      refine ⟨h.signature.mark _ _ _, ?_⟩
      intro r hr
      obtain ⟨r₀, hr₀, rfl⟩ := mem_map.mp hr
      have hlast : c.lastsect + inputminsec = c.lastsect + inputminsec - 1 + 1 := by omega
      have hmark := mark_upTo (h.marked r₀ hr₀) rfl hlast hlt (by omega)
      rwa [show c.lastsect + inputminsec - 1 + 1 = c.lastsect + inputminsec by omega] at hmark
    obtain ⟨regions, hrun, hend, hsame⟩ :=
      @ih _ { info with regions := _ } hnext hhi fun c' hc' =>
        hno c' (mem_cons_of_mem _ hc')
    refine ⟨regions, ?_, ?_, ?_⟩
    · unfold updateChunks
      rw [foldlM_cons, hstep]
      exact hrun
    · rw [append_assoc] at hend
      exact hend
    · rw [hsame, map_map]
      apply map_congr_left
      intro r hr
      simp only [Function.comp, mark_region, mark_hash]

/-- A mark stays right when the chunks behind are looked at: there is a later chunk with the
    last sector exactly if the region does not end in its own chunk. -/
theorem MarkedBy.numbered {inputminsec lo hi : Nat} {c : ChunkExtent}
    (h : MarkedBy inputminsec c hreg) (hc : c ∈ chunks) (htiles : Tiles lo chunks hi) (hpos : 0 < hreg.region.size)
    (hlo : lo + inputminsec ≤ hreg.region.start) (hstop : hreg.region.stop ≤ hi + inputminsec) :
    Numbered inputminsec chunks hreg := by
  obtain ⟨hhas, hnum, hflag⟩ := h
  obtain ⟨earlier, later, rfl, hlater⟩ := htiles.split hc
  refine ⟨earlier, c, later, rfl, hhas, hnum, ?_⟩
  have hstop_eq : hreg.region.stop = hreg.region.start + hreg.region.size := rfl
  rw [hflag, hlater.exists_has]
  omega

/-- **Chunk numbers.** A signature of an image, whatever numbers it has, goes through the calls
    for chunks that tile the image without a failing assertion. Every region then has the
    number of the chunk of its first sector, and the flag exactly if its last sector is in a
    later chunk; its place and its hash are as before. -/
theorem updateChunks_numbers {inputminsec lo hi : Nat} {chunks : List ChunkExtent} {info : HashInfo}
    (hsig : SignatureOf (lo + inputminsec) (hi + inputminsec) info.regions)
    (htiles : Tiles lo chunks hi) (hhi : hi + inputminsec < 2 ^ 32)
    (hno : ∀ c ∈ chunks, 0 ≤ c.blockindex ∧ c.blockindex < 2 ^ 31) :
    ∃ regions, updateChunks inputminsec (some info) chunks = .ok (some { info with regions := regions }) ∧
      regions.map (fun r => (r.region, r.hash)) = info.regions.map (fun r => (r.region, r.hash)) ∧
      ∀ r ∈ regions, Numbered inputminsec chunks r := by
  have hstart : AtBoundary inputminsec lo hi [] (lo + inputminsec) info.regions := by
    refine ⟨hsig, ?_⟩
    intro r hr
    have := (hsig.within r hr).1
    exact ⟨fun hlt => absurd hlt (by omega), fun c hc => nomatch hc⟩
  obtain ⟨regions, hrun, hend, hsame⟩ := updateChunks_spec hstart htiles hhi hno
  refine ⟨regions, hrun, hsame, ?_⟩
  intro r hr
  have hpos := hend.signature.nonempty r hr
  obtain ⟨hlo, hstop⟩ := hend.signature.within r hr
  have hstop_eq : r.region.stop = r.region.start + r.region.size := rfl
  obtain ⟨c, hc, hmarked⟩ := (hend.marked r hr).marked (by omega)
  rw [nil_append] at hc
  exact hmarked.numbered hc htiles hpos hlo hstop

/-- A region over two chunks, and one that ends with its chunk. -/
theorem updateChunks_numbers_two : ∃ regions, updateChunks 63 (some { emptyHashInfo with
        regions := [⟨⟨63, 8⟩, 7, []⟩, ⟨⟨72, 4⟩, 0, []⟩] })
        [⟨0, 10, 0⟩, ⟨10, 20, 1⟩] =
      .ok (some { emptyHashInfo with regions := regions }) ∧
    regions.map (fun r => (r.region, r.hash)) = [(⟨63, 8⟩, []), (⟨72, 4⟩, [])] ∧
    ∀ r ∈ regions, Numbered 63 [⟨0, 10, 0⟩, ⟨10, 20, 1⟩] r :=
  @updateChunks_numbers 63 0 20 _ { emptyHashInfo with regions := [⟨⟨63, 8⟩, 7, []⟩, ⟨⟨72, 4⟩, 0, []⟩] }
    ⟨by simp, by simp [Extent.stop], by simp⟩
    (.chunk (c := ⟨0, 10, 0⟩) (by decide) (.chunk (c := ⟨10, 20, 1⟩) (by decide) (.done 20)))
    (by decide) (by simp)

end Emulab.Imagezip
