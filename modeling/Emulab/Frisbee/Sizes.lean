import Emulab.Frisbee.Decls
import Emulab.Lib.MachineInt
import Mathlib.Algebra.BigOperators.Intervals

/-! # Chunk and block sizes

  The sizes of the chunks and blocks of a file, which client and server
  each derive from its length in bytes. The last chunk and the last block
  may be short.
-/

namespace Emulab.Frisbee

open MachineInt Option

/-! ## Section 1: The size functions -/

/-- The static variables set by `InitSizes`. -/
structure Sizes where
  chunkSize : Int
  blockSize : Int
  totalChunks : Int
  totalBlocks : Int
  /-- How many blocks in the last chunk (zero means full). -/
  lastChunkSize : Int
  /-- How many bytes in the last block (zero means full). -/
  lastBlockSize : Int
deriving DecidableEq, Repr

/-- Set the sizes for a file of `bytes` bytes. Totals are stored in an `int`. -/
def initSizes (chunksize blocksize bytes : Int) : Option Sizes :=
  if chunksize = MAXCHUNKSIZE ∧ blocksize = MAXBLOCKSIZE then
    let totalBlocks := toInt32 ((toInt64 (bytes + blocksize - 1)).tdiv blocksize)
    let totalChunks := (toInt32 (totalBlocks + chunksize - 1)).tdiv chunksize
    some {
      chunkSize := chunksize
      blockSize := blocksize
      totalChunks := totalChunks
      totalBlocks := totalBlocks
      lastChunkSize := totalBlocks.tmod chunksize
      lastBlockSize := bytes.tmod blocksize }
  else
    none

/-- Number of blocks of a chunk. -/
def chunkSize (s : Sizes) (chunkno : Int) : Option Int :=
  if chunkno < s.totalChunks then
    if chunkno < s.totalChunks - 1 ∨ s.lastChunkSize = 0 then some s.chunkSize
    else some s.lastChunkSize
  else
    none

def chunkBytes (s : Sizes) (chunkno : Int) : Option Int :=
  if chunkno < s.totalChunks then
    if chunkno < s.totalChunks - 1 ∨ s.lastChunkSize = 0 then some (s.chunkSize * s.blockSize)
    else some ((s.lastChunkSize - 1) * s.blockSize + s.lastBlockSize)
  else
    none

/-- Number of bytes of a block. -/
def blockSize (s : Sizes) (chunkno blockno : Int) : Option Int :=
  if chunkno < s.totalChunks ∧ blockno < s.blockSize then
    let imageblock := toInt32 (chunkno * s.chunkSize + blockno)
    if chunkno < 0 ∨ imageblock < s.totalBlocks - 1 ∨ s.lastBlockSize = 0 then some s.blockSize
    else some s.lastBlockSize
  else
    none

/-- The sum of `f 0, ..., f (n - 1)`, if all of them are defined. -/
def sumOver (f : Int → Option Int) : Nat → Option Int
  | 0 => some 0
  | n + 1 => do
    let total ← sumOver f n
    let x ← f n
    some (total + x)

/-- The size functions cut a file of `bytes` bytes into chunks and these into
    blocks, without loss or overlap. -/
structure Partitions (s : Sizes) (bytes : Int) : Prop where
  chunkBytes_sum : sumOver (chunkBytes s) s.totalChunks.toNat = some bytes
  chunkBytes_eq : ∀ c, 0 ≤ c → c < s.totalChunks → ∃ n total, chunkSize s c = some n ∧
    chunkBytes s c = some total ∧ sumOver (blockSize s c) n.toNat = some total
  /-- A chunk has between one and `MAXCHUNKSIZE` blocks. -/
  chunkSize_range : ∀ c, 0 ≤ c → c < s.totalChunks → ∃ n, chunkSize s c = some n ∧ 1 ≤ n ∧ n ≤ MAXCHUNKSIZE
  /-- A block has between one and `MAXBLOCKSIZE` bytes. -/
  blockSize_range : ∀ c b n, 0 ≤ c → c < s.totalChunks → chunkSize s c = some n → 0 ≤ b →
    b < n → ∃ m, blockSize s c b = some m ∧ 1 ≤ m ∧ m ≤ MAXBLOCKSIZE
  chunkSize_sum : sumOver (chunkSize s) s.totalChunks.toNat = some s.totalBlocks

/-! ## Section 2: Sums -/

variable {f : Int → Option Int}

theorem sumOver_const {n : Nat} {x : Int} (h : ∀ k : Nat, k < n → f k = some x) : sumOver f n = some (n * x) := by
  induction n with
  | zero => simp [sumOver]
  | succ n ih =>
    rw [sumOver, ih fun k hk => h k (by omega), h n (by omega)]
    simp only [bind_eq_bind, bind_some, Option.some.injEq]
    push_cast
    ring

theorem sumOver_last {n : Nat} {x y : Int} (hn : 0 < n)
    (h : ∀ k : Nat, k < n - 1 → f k = some x) (hlast : f (n - 1 : Nat) = some y) :
    sumOver f n = some ((n - 1 : Nat) * x + y) := by
  obtain ⟨m, rfl⟩ : ∃ m, n = m + 1 := ⟨n - 1, by omega⟩
  rw [Nat.add_sub_cancel] at h hlast ⊢
  rw [sumOver, sumOver_const h, hlast]
  rfl

/-! ## Section 3: What `InitSizes` establishes -/

/-- The relations between the sizes that hold whatever the length of the file, as long as it has a chunk. -/
structure Sizes.WellFormed (s : Sizes) : Prop where
  chunkSize : s.chunkSize = 1024
  blockSize : s.blockSize = 1024
  totalBlocks : 0 < s.totalChunks →
    1024 * (s.totalChunks - 1) < s.totalBlocks ∧ s.totalBlocks ≤ 1024 * s.totalChunks
  totalChunks_lt : s.totalChunks < 2 ^ 21
  lastChunkSize : s.lastChunkSize = s.totalBlocks.tmod 1024

variable {s : Sizes}

theorem wellFormed_initSizes {c b bytes : Int} (h : initSizes c b bytes = some s) :
    s.WellFormed ∧ s.lastBlockSize = bytes.tmod 1024 ∧
      s.totalBlocks = toInt32 ((toInt64 (bytes + 1024 - 1)).tdiv 1024) ∧
      s.totalChunks = (toInt32 (s.totalBlocks + 1024 - 1)).tdiv 1024 := by
  unfold initSizes at h
  by_cases hcb : c = MAXCHUNKSIZE ∧ b = MAXBLOCKSIZE
  · rw [if_pos hcb, Option.some.injEq] at h
    obtain ⟨rfl, rfl⟩ := hcb
    subst h
    have hrange := toInt32_range ((toInt64 (bytes + 1024 - 1)).tdiv 1024)
    have hdiv : ∀ t : Int, 0 < (toInt32 (t + 1024 - 1)).tdiv 1024 → 0 ≤ toInt32 (t + 1024 - 1) ∧
          (toInt32 (t + 1024 - 1)).tdiv 1024 = toInt32 (t + 1024 - 1) / 1024 :=
      fun t => tdiv_eq_ediv_of_pos (by decide)
    have hmax := fun t : Int => toInt32_range (t + 1024 - 1)
    refine ⟨⟨rfl, rfl, fun hpos => ?_, ?_, rfl⟩, rfl, rfl, rfl⟩
    · simp only [MAXCHUNKSIZE, MAXBLOCKSIZE] at hpos ⊢
      push_cast at hpos ⊢
      generalize toInt32 ((toInt64 (bytes + 1024 - 1)).tdiv 1024) = t at *
      -- with a positive number of chunks the sum has not wrapped around
      obtain ⟨k, hk⟩ := exists_toInt32_eq (t + 1024 - 1)
      have := hmax t
      have := hdiv t hpos
      omega
    · simp only [MAXCHUNKSIZE, MAXBLOCKSIZE]
      push_cast
      generalize toInt32 ((toInt64 (bytes + 1024 - 1)).tdiv 1024) = t at *
      by_contra hge
      have := hmax t
      have := hdiv t (by omega)
      omega
  · rw [if_neg hcb] at h
    simp at h

theorem initSizes_isSome (bytes : Int) : ∃ s, initSizes MAXCHUNKSIZE MAXBLOCKSIZE bytes = some s := by
  simp [initSizes]

def Sizes.lastBlocks (s : Sizes) : Int := s.totalBlocks - 1024 * (s.totalChunks - 1)

namespace Sizes.WellFormed

variable {s : Sizes} (h : s.WellFormed)
include h

theorem lastChunkSize_eq (hpos : 0 < s.totalChunks) :
    s.lastChunkSize = if s.lastBlocks = 1024 then 0 else s.lastBlocks := by
  have hblocks := h.totalBlocks hpos
  have hdef : s.lastBlocks = s.totalBlocks - 1024 * (s.totalChunks - 1) := rfl
  rw [h.lastChunkSize, Int.tmod_eq_emod_of_nonneg (by omega)]
  split_ifs <;> omega

theorem lastBlocks_range (hpos : 0 < s.totalChunks) : 1 ≤ s.lastBlocks ∧ s.lastBlocks ≤ 1024 := by
  have hblocks := h.totalBlocks hpos
  have hdef : s.lastBlocks = s.totalBlocks - 1024 * (s.totalChunks - 1) := rfl
  omega

theorem chunkSize_eq {c : Int} (hc : 0 ≤ c) (hlt : c < s.totalChunks) :
    Frisbee.chunkSize s c = some (if c < s.totalChunks - 1 then 1024 else s.lastBlocks) := by
  have hlast := h.lastChunkSize_eq (by omega)
  have hrange := h.lastBlocks_range (by omega)
  have hsize := h.chunkSize
  rw [Frisbee.chunkSize, if_pos hlt]
  split_ifs <;> simp only [Option.some.injEq] <;> omega

theorem chunkSize_range {c : Int} (hc : 0 ≤ c) (hlt : c < s.totalChunks) :
    ∃ n : Nat, Frisbee.chunkSize s c = some (n : Int) ∧ 1 ≤ n ∧ n ≤ 1024 := by
  have hrange := h.lastBlocks_range (by omega)
  rw [h.chunkSize_eq hc hlt]
  split_ifs
  · exact ⟨1024, rfl, by omega, le_rfl⟩
  · exact ⟨s.lastBlocks.toNat, by rw [Int.toNat_of_nonneg (by omega)], by omega, by omega⟩

end Sizes.WellFormed

theorem initSizes_inRange {bytes : Int} (h : initSizes MAXCHUNKSIZE MAXBLOCKSIZE bytes = some s) (hlo : 0 ≤ bytes)
    (hhi : bytes ≤ (2 ^ 31 - 1024) * 1024) :
    s.totalBlocks = (bytes + 1023) / 1024 ∧ s.totalChunks = (s.totalBlocks + 1023) / 1024 ∧
      s.lastBlockSize = bytes % 1024 := by
  obtain ⟨-, hlast, hblocks, hchunks⟩ := wellFormed_initSizes h
  have hb : s.totalBlocks = (bytes + 1023) / 1024 := by
    rw [hblocks, toInt64_of_range (by omega) (by omega), Int.tdiv_eq_ediv_of_nonneg (by omega),
      toInt32_of_range (by omega) (by omega)]
    omega
  refine ⟨hb, ?_, ?_⟩
  · rw [hchunks, toInt32_of_range (by omega) (by omega), Int.tdiv_eq_ediv_of_nonneg (by omega)]
    omega
  · rw [hlast, Int.tmod_eq_emod_of_nonneg hlo]

theorem blockSize_eq {bytes : Int} (h : initSizes MAXCHUNKSIZE MAXBLOCKSIZE bytes = some s) (hlo : 0 ≤ bytes)
    (hhi : bytes ≤ (2 ^ 31 - 1024) * 1024) {c b n : Int} (hc : 0 ≤ c) (hlt : c < s.totalChunks)
    (hn : chunkSize s c = some n) (hb : 0 ≤ b) (hbn : b < n) :
    blockSize s c b = some (min 1024 (bytes - 1024 * (1024 * c + b))) := by
  obtain ⟨hwf, -⟩ := wellFormed_initSizes h
  obtain ⟨hblocks, hchunks, hlast⟩ := initSizes_inRange h hlo hhi
  have htotal := hwf.totalBlocks (by omega)
  have hsize := hwf.chunkSize
  have hbsize := hwf.blockSize
  rw [hwf.chunkSize_eq hc hlt, Option.some.injEq] at hn
  have hdef : s.lastBlocks = s.totalBlocks - 1024 * (s.totalChunks - 1) := rfl
  have hrange := hwf.lastBlocks_range (by omega)
  have hfit : b < 1024 ∧ 1024 * c + b < s.totalBlocks := by
    split_ifs at hn <;> omega
  rw [blockSize, if_pos ⟨hlt, by omega⟩, hsize, hbsize, hlast]
  have himage : toInt32 (c * 1024 + b) = 1024 * c + b := by
    rw [toInt32_of_range (by omega) (by omega)]
    omega
  simp only [himage]
  split_ifs with hfull
  · congr 1
    omega
  · congr 1
    omega

/-! ## Section 4: When the sizes partition the file -/

/-- The number of bytes `ChunkBytes` reports for the last chunk. -/
def Sizes.lastBytes (s : Sizes) : Int :=
  if s.lastBlocks = 1024 then 1048576 else (s.lastBlocks - 1) * 1024 + s.lastBlockSize

theorem Sizes.WellFormed.chunkBytes_eq (h : s.WellFormed) {c : Int} (hc : 0 ≤ c) (hlt : c < s.totalChunks) :
    chunkBytes s c = some (if c < s.totalChunks - 1 then 1048576 else s.lastBytes) := by
  have hlast := h.lastChunkSize_eq (by omega)
  have hrange := h.lastBlocks_range (by omega)
  rw [chunkBytes, if_pos hlt, h.chunkSize, h.blockSize, hlast, Sizes.lastBytes]
  split_ifs <;> simp only [Option.some.injEq] <;> omega

theorem Sizes.WellFormed.sumOver_chunks (hpos : 0 < s.totalChunks)
    {x y : Int} (hf : ∀ c, 0 ≤ c → c < s.totalChunks → f c = some (if c < s.totalChunks - 1 then x else y)) :
    sumOver f s.totalChunks.toNat = some ((s.totalChunks - 1) * x + y) := by
  have hnat : ((s.totalChunks.toNat - 1 : Nat) : Int) = s.totalChunks - 1 := by omega
  rw [sumOver_last (x := x) (y := y) (by omega), hnat]
  · intro k hk
    rw [hf k (by omega) (by omega), if_pos (by omega)]
  · rw [hnat, hf _ (by omega) (by omega), if_neg (by omega)]

theorem sumOver_blocks {total n : Int} (hn : 0 < n)
    (hf : ∀ b, 0 ≤ b → b < n → f b = some (min 1024 (total - 1024 * b)))
    (hlo : 1024 * (n - 1) ≤ total) (hhi : total ≤ 1024 * n) : sumOver f n.toNat = some total := by
  have hnat : ((n.toNat - 1 : Nat) : Int) = n - 1 := by omega
  rw [sumOver_last (x := 1024) (y := total - 1024 * (n - 1)) (by omega), hnat]
  · congr 1
    ring
  · intro k hk
    rw [hf k (by omega) (by omega)]
    congr 1
    omega
  · rw [hnat, hf _ (by omega) (by omega)]
    congr 1
    omega

/-- The condition on the length of the file: the totals fit in an `int`, and
    the last block is full exactly if the last chunk has all its blocks. -/
def PartitionsWhen (bytes : Int) : Prop :=
  0 ≤ bytes ∧ bytes ≤ (2 ^ 31 - 1024) * 1024 ∧ (bytes % 1024 = 0 ↔ (bytes + 1023) / 1024 % 1024 = 0)

theorem partitionsWhen_of_partitions {bytes : Int}
    (h : initSizes MAXCHUNKSIZE MAXBLOCKSIZE bytes = some s) (hp : Partitions s bytes) : PartitionsWhen bytes := by
  obtain ⟨hwf, hlastBlock, hblocks, hchunks⟩ := wellFormed_initSizes h
  have hsum := hp.chunkBytes_sum
  rcases le_or_gt s.totalChunks 0 with hneg | hpos
  · -- no chunk, so no bytes
    rw [show s.totalChunks.toNat = 0 by omega] at hsum
    obtain rfl : 0 = bytes := some.inj hsum
    exact ⟨by omega, by omega, by decide⟩
  · rw [Sizes.WellFormed.sumOver_chunks hpos fun c => hwf.chunkBytes_eq, Option.some.injEq,
      Sizes.lastBytes] at hsum
    have hrange := hwf.lastBlocks_range hpos
    have hmax := hwf.totalChunks_lt
    have hmod : -1023 ≤ s.lastBlockSize ∧ s.lastBlockSize ≤ 1023 := by
      have := Int.tmod_lt_of_pos bytes (by decide : (0 : Int) < 1024)
      have := Int.lt_tmod_of_pos bytes (by decide : (0 : Int) < 1024)
      omega
    have hlo : 0 ≤ bytes := by
      by_contra hbytes
      have hsmall : -1023 ≤ bytes := by split_ifs at hsum <;> omega
      have hzero : s.totalBlocks = 0 := by
        rw [hblocks, toInt64_of_range (by omega) (by omega),
          Int.tdiv_eq_ediv_of_nonneg (by omega), toInt32_of_range (by omega) (by omega)]
        omega
      have := hwf.totalBlocks hpos
      omega
    have hhi : bytes ≤ (2 ^ 31 - 1024) * 1024 := by split_ifs at hsum <;> omega
    obtain ⟨hb, hc, hl⟩ := initSizes_inRange h hlo hhi
    have hdef : s.lastBlocks = s.totalBlocks - 1024 * (s.totalChunks - 1) := rfl
    refine ⟨hlo, hhi, ?_⟩
    split_ifs at hsum <;> omega

theorem partitions_of_partitionsWhen {bytes : Int}
    (h : initSizes MAXCHUNKSIZE MAXBLOCKSIZE bytes = some s) (hw : PartitionsWhen bytes) : Partitions s bytes := by
  obtain ⟨hlo, hhi, hmod⟩ := hw
  obtain ⟨hwf, -⟩ := wellFormed_initSizes h
  obtain ⟨hblocks, hchunks, hlast⟩ := initSizes_inRange h hlo hhi
  have hdef : s.lastBlocks = s.totalBlocks - 1024 * (s.totalChunks - 1) := rfl
  have hbytes : 0 < s.totalChunks → s.lastBytes = bytes - 1048576 * (s.totalChunks - 1) := by
    intro hpos
    have hrange := hwf.lastBlocks_range hpos
    rw [Sizes.lastBytes]
    split_ifs <;> omega
  refine ⟨?_, fun c hc hlt => ?_, fun c hc hlt => ?_, fun c b n hc hlt hn hb hbn => ?_, ?_⟩
  · rcases le_or_gt s.totalChunks 0 with hneg | hpos
    · rw [show s.totalChunks.toNat = 0 by omega, sumOver, Option.some.injEq]
      omega
    · rw [Sizes.WellFormed.sumOver_chunks hpos fun c => hwf.chunkBytes_eq, hbytes hpos]
      congr 1
      ring
  · have hpos : 0 < s.totalChunks := by omega
    have hrange := hwf.lastBlocks_range hpos
    have hn := hwf.chunkSize_eq hc hlt
    refine ⟨_, _, hn, hwf.chunkBytes_eq hc hlt, ?_⟩
    have hbytes := hbytes hpos
    apply sumOver_blocks
    · split_ifs <;> omega
    · intro b hb hbn
      rw [blockSize_eq h hlo hhi hc hlt hn hb hbn]
      congr 1
      split_ifs at hbn ⊢ <;> omega
    · split_ifs <;> omega
    · split_ifs <;> omega
  · obtain ⟨n, hn, h1, h2⟩ := hwf.chunkSize_range hc hlt
    exact ⟨n, hn, by omega, by simp only [MAXCHUNKSIZE]; omega⟩
  · refine ⟨_, blockSize_eq h hlo hhi hc hlt hn hb hbn, ?_, ?_⟩
    · have hrange := hwf.lastBlocks_range (by omega)
      rw [hwf.chunkSize_eq hc hlt, Option.some.injEq] at hn
      split_ifs at hn <;> omega
    · simp only [MAXBLOCKSIZE]
      omega
  · rcases le_or_gt s.totalChunks 0 with hneg | hpos
    · rw [show s.totalChunks.toNat = 0 by omega, sumOver, Option.some.injEq]
      omega
    · rw [Sizes.WellFormed.sumOver_chunks hpos fun c => hwf.chunkSize_eq]
      congr 1
      omega

/-- For every length of the file, the size functions partition it exactly under this condition. -/
theorem partitions_iff {bytes : Int} {s : Sizes} (h : initSizes MAXCHUNKSIZE MAXBLOCKSIZE bytes = some s) :
    Partitions s bytes ↔ PartitionsWhen bytes :=
  ⟨partitionsWhen_of_partitions h, partitions_of_partitionsWhen h⟩

/-- A file of one chunk and a half. -/
theorem partitions_iff_short : ∃ s, initSizes MAXCHUNKSIZE MAXBLOCKSIZE 1572865 = some s ∧
      (Partitions s 1572865 ↔ PartitionsWhen 1572865) := by
  obtain ⟨s, hs⟩ := initSizes_isSome 1572865
  exact ⟨s, hs, partitions_iff hs⟩

theorem not_partitions_full_block :
    ∃ s, initSizes MAXCHUNKSIZE MAXBLOCKSIZE 1024 = some s ∧ chunkBytes s 0 = some 0 ∧
      blockSize s 0 0 = some 1024 ∧ ¬Partitions s 1024 := by
  refine ⟨_, rfl, by decide, by decide, fun hp => ?_⟩
  have hsum := hp.chunkBytes_sum
  revert hsum
  decide

end Emulab.Frisbee
