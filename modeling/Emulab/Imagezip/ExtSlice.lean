import Emulab.Imagezip.Disk

/-! # The reader of ext2, ext3 and ext4 file systems

  The blocks of a file system are in groups. The descriptor of a group says where the bitmap of
  the blocks in use is, or that there is no bitmap yet.
-/

namespace Emulab.Imagezip.Ext

open MachineInt Option

/-! ## Section 1: The superblock and the descriptors -/

abbrev EXT4_SUPER_MAGIC : Nat := 0xEF53
abbrev EXT4_MIN_BLOCK_SIZE : Nat := 1024
abbrev EXT4_MAX_BLOCK_SIZE : Nat := 65536
abbrev EXT4_MIN_DESC_SIZE : Nat := 32
abbrev EXT4_FEATURE_INCOMPAT_64BIT : Nat := 0x0080
abbrev EXT4_FEATURE_INCOMPAT_FLEX_BG : Nat := 0x0200
abbrev EXT4_FEATURE_RO_COMPAT_SPARSE_SUPER : Nat := 0x0001
abbrev EXT4_BG_BLOCK_UNINIT : Nat := 0x0002

structure Super where
  s_blocks_count_lo : Nat
  s_first_data_block : Nat
  s_log_block_size : Nat
  s_blocks_per_group : Nat
  s_inodes_per_group : Nat
  s_magic : Nat
  s_rev_level : Nat
  s_inode_size : Nat
  s_feature_incompat : Nat
  s_feature_ro_compat : Nat
deriving DecidableEq

def decodeSuper (block : List Byte) : Super where
  s_blocks_count_lo := le32 block 4
  s_first_data_block := le32 block 20
  s_log_block_size := le32 block 24
  s_blocks_per_group := le32 block 32
  s_inodes_per_group := le32 block 40
  s_magic := le16 block 56
  s_rev_level := le32 block 76
  s_inode_size := le16 block 88
  s_feature_incompat := le32 block 96
  s_feature_ro_compat := le32 block 100

/-- `EXT4_BLOCK_SIZE`. In C, a shift that is out of range does not give a size that is accepted. -/
def Super.blockSize (sb : Super) : Nat := EXT4_MIN_BLOCK_SIZE * 2 ^ sb.s_log_block_size

structure GroupDesc where
  bg_block_bitmap_lo : Nat
  bg_inode_bitmap_lo : Nat
  bg_inode_table_lo : Nat
  bg_free_blocks_count_lo : Nat
  bg_flags : Nat
deriving DecidableEq

/-- The descriptor at a position of a buffer. -/
def decodeGroup (buffer : List Byte) (p : Nat) : GroupDesc where
  bg_block_bitmap_lo := le32 buffer p
  bg_inode_bitmap_lo := le32 buffer (p + 4)
  bg_inode_table_lo := le32 buffer (p + 8)
  bg_free_blocks_count_lo := le16 buffer (p + 12)
  bg_flags := le16 buffer (p + 18)

/-- The bitmap of the group has not been initialised. -/
def GroupDesc.uninit (group : GroupDesc) : Bool := group.bg_flags &&& EXT4_BG_BLOCK_UNINIT ≠ 0

/-- `LINUX_FSBTODB`: sectors of some blocks. -/
def Super.fsbtodb (sb : Super) (count : Nat) : Nat := mulU32 (sb.blockSize / SECSIZE) count

/-! ## Section 2: The groups -/

def isset (bitmap : List Byte) (i : Nat) : Bool := (u8 bitmap (i / 8)).testBit (i % 8)

/-- How many of at most so many bits are clear, from one on. -/
def freeRun (bitmap : List Byte) : (left i : Nat) → Nat
  | 0, _ => 0
  | left + 1, i => if isset bitmap i then 0 else freeRun bitmap left (i + 1) + 1

/-- The runs of clear bits below `max`, from a bit on. -/
def freeRuns (bitmap : List Byte) (max : Nat) : (fuel i : Nat) → List Extent
  | 0, _ => []
  | fuel + 1, i =>
    if i < max then
      if isset bitmap i then freeRuns bitmap max fuel (i + 1)
      else
        let n := freeRun bitmap (max - (i + 1)) (i + 1)
        ⟨i, n + 1⟩ :: freeRuns bitmap max fuel (i + n + 1)
    else []

/-- `read_ext4group`: the calls of `addskip`, if it returns 0. -/
def readExt4group (disk : Disk) (sb : Super) (group : GroupDesc) (index sliceoffset : Nat) :
    Option (List Extent) :=
  let block := addU32 sb.s_first_data_block (mulU32 index sb.s_blocks_per_group)
  if sb.s_feature_incompat &&& EXT4_FEATURE_INCOMPAT_FLEX_BG = 0 ∧ (group.bg_block_bitmap_lo < block ∨
      block + sb.s_blocks_per_group ≤ group.bg_block_bitmap_lo) then none
  else if group.uninit then
    let dboff := addU32 (addU32 sliceoffset (sb.fsbtodb (mulU32 index sb.s_blocks_per_group)))
      (sb.fsbtodb sb.s_first_data_block)
    some [⟨dboff, sb.fsbtodb group.bg_free_blocks_count_lo⟩]
  else if sb.blockSize * 8 < sb.s_blocks_per_group then none
  else do
    let bitmap ← devread disk (sectobytes sliceoffset + sb.blockSize * group.bg_block_bitmap_lo) sb.blockSize
    -- the final group may have fewer blocks; the comparison is unsigned
    let max := min (subU32 sb.s_blocks_count_lo block) sb.s_blocks_per_group
    return (freeRuns bitmap max max 0).map fun r =>
      ⟨addU32 (addU32 (addU32 sliceoffset (sb.fsbtodb (mulU32 index sb.s_blocks_per_group))) (sb.fsbtodb r.start))
        (sb.fsbtodb sb.s_first_data_block), sb.fsbtodb r.size⟩

/-- The loop over the groups: whether the slice is accepted, and the calls of `addskip`. The
    descriptors of some groups are in the buffer, those of the next ones are at `soff`. -/
def readGroups (disk : Disk) (sb : Super) (start : Nat) : (left i soff : Nat) → List Byte → Bool × List Extent
  | 0, _, _, _ => (true, [])
  | left + 1, i, soff, groups =>
    let gix := i % (sb.blockSize / EXT4_MIN_DESC_SIZE)
    match if gix = 0 then (devread disk soff sb.blockSize).map (·, soff + sb.blockSize) else some (groups, soff) with
    | none => (false, [])
    | some (groups, soff) =>
      match readExt4group disk sb (decodeGroup groups (gix * EXT4_MIN_DESC_SIZE)) i start with
      | none => (false, [])
      | some skips =>
        let rest := readGroups disk sb start left (i + 1) soff groups
        (rest.1, skips ++ rest.2)

/-- The number of groups, which is an `int`. -/
def Super.numgroups (sb : Super) : Nat :=
  let n := addU32 (subU32 sb.s_blocks_count_lo sb.s_first_data_block) (subU32 sb.s_blocks_per_group 1) /
    sb.s_blocks_per_group
  if n < 2 ^ 31 then n else 0

/-- A slice of a disk whose sectors have numbers of 32 bits. -/
structure Slice where
  start : Nat
  size : Nat
  size_lt : size < 2 ^ 32
  stop_le : start + size ≤ 2 ^ 32

/-- `read_linuxslice`: whether the slice is accepted, and the calls of `addskip`. `fixup_lilo` may
    have failed before. -/
def readLinuxslice (disk : Disk) (lilo excludenonfs : Bool) (slice : Slice) : Except Failure (Bool × List Extent) :=
  if lilo then .ok (false, [])
  else
    match devread disk (sectobytes slice.start + 1024) 1024 with
    | none => .ok (false, [])
    | some block =>
      let sb := decodeSuper block
      if sb.s_magic ≠ EXT4_SUPER_MAGIC then .ok (false, [])
      else if sb.blockSize < EXT4_MIN_BLOCK_SIZE ∨ EXT4_MAX_BLOCK_SIZE < sb.blockSize then .ok (false, [])
      else if sb.s_feature_incompat &&& EXT4_FEATURE_INCOMPAT_64BIT ≠ 0 then .ok (false, [])
      else
        let fssect := bytestosec (sb.blockSize * sb.s_blocks_count_lo) % 2 ^ 32
        let outside := if excludenonfs ∧ fssect < slice.size then [⟨addU32 slice.start fssect, subU32 slice.size fssect⟩] else []
        -- a division by zero
        if sb.s_blocks_per_group = 0 then .error .error
        else
          let soff := sectobytes slice.start + mulU32 (addU32 sb.s_first_data_block 1) sb.blockSize
          let groups := readGroups disk sb slice.start sb.numgroups 0 soff []
          .ok (groups.1, outside ++ groups.2)

/-! ## Section 3: Free blocks -/

/-- The superblock of the file system that begins at a sector. -/
def superOf (disk : Disk) (start : Nat) : Super := decodeSuper (readBytes disk.byte (sectobytes start + 1024) 1024)

namespace Super

def perBlock (sb : Super) : Nat := sb.blockSize / SECSIZE

def groups (sb : Super) : Nat :=
  (sb.s_blocks_count_lo - sb.s_first_data_block + (sb.s_blocks_per_group - 1)) / sb.s_blocks_per_group

def groupStart (sb : Super) (g : Nat) : Nat := sb.s_first_data_block + g * sb.s_blocks_per_group

def groupOf (sb : Super) (b : Nat) : Nat := (b - sb.s_first_data_block) / sb.s_blocks_per_group

/-- The group begins with a superblock and the descriptors, or with copies of them. -/
def HasSuper (sb : Super) (g : Nat) : Prop :=
  sb.s_feature_ro_compat &&& EXT4_FEATURE_RO_COMPAT_SPARSE_SUPER = 0 ∨ g = 0 ∨ ∃ p ∈ [3, 5, 7], ∃ k < g, g = p ^ k

instance (sb : Super) (g : Nat) : Decidable (sb.HasSuper g) := inferInstanceAs (Decidable (_ ∨ _ ∨ _))

def descBlocks (sb : Super) : Nat := (sb.groups * EXT4_MIN_DESC_SIZE + sb.blockSize - 1) / sb.blockSize

/-- Blocks in the inode table of a group. The first revision has inodes of 128 bytes. -/
def itableBlocks (sb : Super) : Nat :=
  (sb.s_inodes_per_group * (if sb.s_rev_level = 0 then 128 else sb.s_inode_size) + sb.blockSize - 1) / sb.blockSize

/-- The blocks of the file system have 1K to 4K, and a group has no more of them than a bitmap has
    bits. The first one is the boot block if that is a whole block. -/
structure IsExt (sb : Super) : Prop where
  block_size : sb.s_log_block_size ≤ 2
  first_le : sb.s_first_data_block ≤ 1
  nonempty : 0 < sb.s_blocks_count_lo
  per_group : sb.s_blocks_per_group ≤ sb.blockSize * 8

instance (sb : Super) : Decidable sb.IsExt :=
  decidable_of_iff (_ ∧ _ ∧ _ ∧ _) ⟨fun h => ⟨h.1, h.2.1, h.2.2.1, h.2.2.2⟩, fun h => ⟨h.1, h.2, h.3, h.4⟩⟩

end Super

section

variable (disk : Disk) (sb : Super) (start : Nat)

/-- The descriptor of a group. They are in the block behind the superblock. -/
def descOf (g : Nat) : GroupDesc :=
  decodeGroup (readBytes disk.byte (sectobytes start + (sb.s_first_data_block + 1) * sb.blockSize +
    g * EXT4_MIN_DESC_SIZE) EXT4_MIN_DESC_SIZE) 0

def bitmapOf (g : Nat) : List Byte :=
  readBytes disk.byte (sectobytes start + sb.blockSize * (descOf disk sb start g).bg_block_bitmap_lo) sb.blockSize

/-- The block of the group is one of the superblock, the descriptors, the bitmaps or the inode
    tables. With flexible groups, they may be those of other groups. -/
def IsMetadata (g b : Nat) : Prop :=
  (sb.HasSuper g ∧ b < sb.groupStart g + 1 + sb.descBlocks) ∨
    ∃ g' < sb.groups, b = (descOf disk sb start g').bg_block_bitmap_lo ∨
      b = (descOf disk sb start g').bg_inode_bitmap_lo ∨
      ((descOf disk sb start g').bg_inode_table_lo ≤ b ∧
        b < (descOf disk sb start g').bg_inode_table_lo + sb.itableBlocks)

instance (g b : Nat) : Decidable (IsMetadata disk sb start g b) := inferInstanceAs (Decidable (_ ∨ _))

def BitClear (g b : Nat) : Prop := isset (bitmapOf disk sb start g) (b - sb.groupStart g) = false

instance (g b : Nat) : Decidable (BitClear disk sb start g b) := inferInstanceAs (Decidable (_ = _))

/-- A block of the file system is free according to its group. -/
def IsFree (b : Nat) : Prop :=
  sb.s_first_data_block ≤ b ∧ b < sb.s_blocks_count_lo ∧
    if (descOf disk sb start (sb.groupOf b)).uninit then ¬IsMetadata disk sb start (sb.groupOf b) b
    else BitClear disk sb start (sb.groupOf b) b

instance (b : Nat) : Decidable (IsFree disk sb start b) := inferInstanceAs (Decidable (_ ∧ _ ∧ ite _ _ _))

/-- What is skipped in the file system is free. -/
def OnlyFree (skips : List Extent) : Prop :=
  ∀ x, start ≤ x → x < start + sb.perBlock * sb.s_blocks_count_lo → Extent.Covered skips x →
    IsFree disk sb start ((x - start) / sb.perBlock)

/-- The blocks whose bits are clear in a bitmap are skipped. -/
def AllClear (skips : List Extent) : Prop :=
  ∀ b, sb.s_first_data_block ≤ b → b < sb.s_blocks_count_lo → (descOf disk sb start (sb.groupOf b)).uninit = false →
    BitClear disk sb start (sb.groupOf b) b → ∀ x, start ≤ x → (x - start) / sb.perBlock = b → Extent.Covered skips x

/-- In a group without a bitmap, the first blocks are free, as many as the group has free blocks. -/
def FreeFirst : Prop :=
  ∀ g < sb.groups, (descOf disk sb start g).uninit →
    ∀ k < (descOf disk sb start g).bg_free_blocks_count_lo, sb.groupStart g + k < sb.s_blocks_count_lo →
      IsFree disk sb start (sb.groupStart g + k)

instance : Decidable (FreeFirst disk sb start) := inferInstanceAs (Decidable (∀ _ < _, _))

end

/-! ## Section 4: What is skipped -/

theorem freeRun_spec (bitmap : List Byte) (left i : Nat) :
    freeRun bitmap left i ≤ left ∧ ∀ x, i ≤ x → x < i + freeRun bitmap left i → isset bitmap x = false := by
  induction left generalizing i with
  | zero =>
    refine ⟨le_refl _, fun x hlo hhi => ?_⟩
    unfold freeRun at hhi
    omega
  | succ left ih =>
    obtain ⟨hle, hclear⟩ := ih (i + 1)
    unfold freeRun
    by_cases hbit : isset bitmap i = true
    · rw [if_pos hbit]
      exact ⟨Nat.zero_le _, fun x hlo hhi => by omega⟩
    · rw [if_neg hbit]
      refine ⟨Nat.succ_le_succ hle, fun x hlo hhi => ?_⟩
      rcases Nat.eq_or_lt_of_le hlo with rfl | hlt
      · simpa using hbit
      · exact hclear x hlt (by omega)

/-- The runs are those of the clear bits. -/
theorem covered_freeRuns (bitmap : List Byte) {max fuel i : Nat} (hfuel : max ≤ fuel + i) (x : Nat) :
    Extent.Covered (freeRuns bitmap max fuel i) x ↔ i ≤ x ∧ x < max ∧ isset bitmap x = false := by
  induction fuel generalizing i with
  | zero =>
    unfold freeRuns
    simp only [Extent.covered_nil, false_iff]
    omega
  | succ fuel ih =>
    unfold freeRuns
    by_cases hlt : i < max
    · rw [if_pos hlt]
      by_cases hbit : isset bitmap i = true
      · rw [if_pos hbit, ih (by omega)]
        constructor
        · rintro ⟨hlo, hhi, hclear⟩
          exact ⟨by omega, hhi, hclear⟩
        · rintro ⟨hlo, hhi, hclear⟩
          refine ⟨Nat.lt_of_le_of_ne hlo ?_, hhi, hclear⟩
          rintro rfl
          rw [hbit] at hclear
          cases hclear
      · obtain ⟨hle, hclear⟩ := freeRun_spec bitmap (max - (i + 1)) (i + 1)
        rw [if_neg hbit, Extent.covered_cons, ih (by omega)]
        unfold Extent.Has Extent.stop
        dsimp only
        constructor
        · rintro (⟨hlo, hhi⟩ | ⟨hlo, hhi, hx⟩)
          · refine ⟨hlo, by omega, ?_⟩
            rcases Nat.eq_or_lt_of_le hlo with rfl | hlt
            · simpa using hbit
            · exact hclear x hlt (by omega)
          · exact ⟨by omega, hhi, hx⟩
        · rintro ⟨hlo, hhi, hx⟩
          by_cases hrun : x < i + freeRun bitmap (max - (i + 1)) (i + 1) + 1
          · exact Or.inl ⟨hlo, by omega⟩
          · exact Or.inr ⟨by omega, hhi, hx⟩
    · rw [if_neg hlt]
      simp only [Extent.covered_nil, false_iff]
      omega

theorem mem_freeRuns {bitmap : List Byte} {max fuel i : Nat} {r : Extent} (hr : r ∈ freeRuns bitmap max fuel i) :
    r.start < max ∧ r.size ≤ max := by
  induction fuel generalizing i with
  | zero => nomatch hr
  | succ fuel ih =>
    unfold freeRuns at hr
    split at hr
    · split at hr
      · exact ih hr
      · rcases List.mem_cons.mp hr with rfl | hr
        · obtain ⟨hle, -⟩ := freeRun_spec bitmap (max - (i + 1)) (i + 1)
          dsimp only
          omega
        · exact ih hr
    · nomatch hr

/-! ## Section 5: The arithmetic of the sectors -/

theorem u8_readBytes (disk : Nat → Byte) (offset : Nat) {count i : Nat} (h : i < count) :
    u8 (readBytes disk offset count) i = (disk (offset + i)).toNat := by
  unfold u8 readBytes
  rw [List.getD_eq_getElem?_getD, List.getElem?_map, List.getElem?_range h]
  rfl

theorem decodeGroup_readBytes (disk : Nat → Byte) (offset : Nat) {count p : Nat} (h : p + EXT4_MIN_DESC_SIZE ≤ count) :
    decodeGroup (readBytes disk offset count) p = decodeGroup (readBytes disk (offset + p) EXT4_MIN_DESC_SIZE) 0 := by
  have hbyte : ∀ i, i < 32 →
      u8 (readBytes disk offset count) (p + i) = u8 (readBytes disk (offset + p) EXT4_MIN_DESC_SIZE) i := by
    intro i hi
    have h : p + 32 ≤ count := h
    rw [u8_readBytes disk offset (by omega), u8_readBytes disk (offset + p) hi, Nat.add_assoc]
  have hfirst := hbyte 0 (by decide)
  rw [Nat.add_zero] at hfirst
  unfold decodeGroup le32 le16
  simp only [Nat.add_assoc, Nat.zero_add, Nat.reduceAdd, hfirst, hbyte, Nat.reduceLT]

section

variable {disk : Disk} {sb : Super} {start g : Nat}

theorem Super.IsExt.blockSize_eq (hext : sb.IsExt) :
    sb.blockSize = SECSIZE * sb.perBlock ∧ 2 ≤ sb.perBlock ∧ sb.perBlock ≤ 8 := by
  obtain ⟨hlog, -, -, -⟩ := hext
  unfold Super.perBlock Super.blockSize
  generalize sb.s_log_block_size = log at hlog
  interval_cases log <;> decide

theorem Super.fsbtodb_of_lt {n : Nat} (h : sb.perBlock * n < 2 ^ 32) : sb.fsbtodb n = sb.perBlock * n :=
  mulU32_of_lt h

theorem Super.groupStart_lt (hbpg : 0 < sb.s_blocks_per_group) (hfirst : sb.s_first_data_block ≤ sb.s_blocks_count_lo)
    (hg : g < sb.groups) : sb.groupStart g < sb.s_blocks_count_lo := by
  have hle := (Nat.le_div_iff_mul_le hbpg).mp (Nat.succ_le_of_lt hg)
  rw [Nat.succ_mul] at hle
  unfold Super.groupStart
  omega

theorem has_blocks {p x : Nat} (b n : Nat) (hp : 0 < p) (hx : start ≤ x) :
    Extent.Has ⟨start + p * b, p * n⟩ x ↔ b ≤ (x - start) / p ∧ (x - start) / p < b + n := by
  rw [Nat.le_div_iff_mul_le hp, Nat.div_lt_iff_lt_mul hp, Nat.add_mul, Nat.mul_comm b, Nat.mul_comm n]
  unfold Extent.Has Extent.stop
  dsimp only
  omega

theorem covered_blocks {p x : Nat} (b : Nat) (runs : List Extent) (hp : 0 < p) (hx : start ≤ x) :
    Extent.Covered (runs.map fun r => ⟨start + p * (b + r.start), p * r.size⟩) x ↔
      b ≤ (x - start) / p ∧ Extent.Covered runs ((x - start) / p - b) := by
  induction runs with
  | nil => simp
  | cons r runs ih =>
    rw [List.map_cons, Extent.covered_cons, Extent.covered_cons, ih, has_blocks _ _ hp hx, and_or_left]
    refine or_congr_left ?_
    unfold Extent.Has Extent.stop
    omega

theorem Super.addskip_start (hp : 0 < sb.perBlock) (hfit : start + sb.perBlock * sb.s_blocks_count_lo ≤ 2 ^ 32) {j : Nat}
    (hj : sb.groupStart g + j < sb.s_blocks_count_lo) :
    addU32 sb.s_first_data_block (mulU32 g sb.s_blocks_per_group) = sb.groupStart g ∧
      addU32 (addU32 start (sb.fsbtodb (mulU32 g sb.s_blocks_per_group))) (sb.fsbtodb sb.s_first_data_block) =
        start + sb.perBlock * sb.groupStart g ∧
      addU32 (addU32 (addU32 start (sb.fsbtodb (mulU32 g sb.s_blocks_per_group))) (sb.fsbtodb j))
          (sb.fsbtodb sb.s_first_data_block) = start + sb.perBlock * (sb.groupStart g + j) := by
  have hlt : sb.perBlock * (sb.groupStart g + j) < sb.perBlock * sb.s_blocks_count_lo :=
    Nat.mul_lt_mul_of_pos_left hj hp
  have hle : sb.groupStart g + j ≤ sb.perBlock * (sb.groupStart g + j) := Nat.le_mul_of_pos_left _ hp
  unfold Super.groupStart at *
  have hgroup : mulU32 g sb.s_blocks_per_group = g * sb.s_blocks_per_group := mulU32_of_lt (by omega)
  rw [hgroup]
  generalize g * sb.s_blocks_per_group = m at *
  simp only [Nat.mul_add] at hlt hle ⊢
  rw [Super.fsbtodb_of_lt (by omega), Super.fsbtodb_of_lt (by omega), Super.fsbtodb_of_lt (by omega)]
  unfold addU32
  refine ⟨?_, ?_, ?_⟩ <;> omega

end

/-! ## Section 6: The groups one after another -/

def SkippedBy (disk : Disk) (sb : Super) (start g b : Nat) : Prop :=
  sb.groupStart g ≤ b ∧
    if (descOf disk sb start g).uninit then b < sb.groupStart g + (descOf disk sb start g).bg_free_blocks_count_lo
    else b < sb.groupStart g + sb.s_blocks_per_group ∧ BitClear disk sb start g b

section

variable {disk : Disk} {sb : Super} {start g : Nat}

theorem bg_free_blocks_count_lt (disk : Disk) (sb : Super) (start g : Nat) :
    (descOf disk sb start g).bg_free_blocks_count_lo < 2 ^ 16 := le16_lt _ _

theorem readExt4group_spec (hext : sb.IsExt) (hfit : start + sb.perBlock * sb.s_blocks_count_lo ≤ 2 ^ 32)
    (hg : sb.groupStart g < sb.s_blocks_count_lo) {skips : List Extent}
    (h : readExt4group disk sb (descOf disk sb start g) g start = some skips) {x : Nat} (hlo : start ≤ x)
    (hx : (x - start) / sb.perBlock < sb.s_blocks_count_lo) :
    Extent.Covered skips x ↔ SkippedBy disk sb start g ((x - start) / sb.perBlock) := by
  obtain ⟨hblocksize, hper, hper8⟩ := hext.blockSize_eq
  have hp : 0 < sb.perBlock := by omega
  obtain ⟨hblock, huninit, -⟩ := sb.addskip_start (j := 0) hp hfit hg
  unfold readExt4group at h
  dsimp only at h
  rw [hblock] at h
  unfold SkippedBy
  split at h
  · cases h
  · split at h
    · rename_i hflag
      obtain rfl := some.inj h
      have hcount : sb.perBlock * (descOf disk sb start g).bg_free_blocks_count_lo < 2 ^ 32 :=
        calc _ ≤ 8 * (descOf disk sb start g).bg_free_blocks_count_lo := Nat.mul_le_mul_right _ hper8
          _ < 2 ^ 32 := by
            have := bg_free_blocks_count_lt disk sb start g
            omega
      rw [huninit, sb.fsbtodb_of_lt hcount, if_pos hflag]
      simp only [Extent.covered_cons, Extent.covered_nil, or_false]
      exact has_blocks _ _ hp hlo
    · rename_i hflag
      split at h
      · cases h
      · cases hread : devread disk (sectobytes start + sb.blockSize * (descOf disk sb start g).bg_block_bitmap_lo)
            sb.blockSize with
        | none =>
          rw [hread] at h
          cases h
        | some bitmap =>
          rw [hread] at h
          obtain rfl := some.inj h
          have hbitmap : bitmapOf disk sb start g = bitmap := by
            exact (eq_of_devread hread).symm
          have hmax : min (subU32 sb.s_blocks_count_lo (sb.groupStart g)) sb.s_blocks_per_group =
              min (sb.s_blocks_count_lo - sb.groupStart g) sb.s_blocks_per_group := by
            rw [subU32_of_le hg.le]
            have := Nat.mul_le_mul_right sb.s_blocks_count_lo hper
            omega
          rw [hmax, if_neg hflag]
          unfold BitClear
          rw [hbitmap]
          generalize hm : min (sb.s_blocks_count_lo - sb.groupStart g) sb.s_blocks_per_group = max
          have hskips : ∀ r ∈ freeRuns bitmap max max 0,
              (⟨addU32 (addU32 (addU32 start (sb.fsbtodb (mulU32 g sb.s_blocks_per_group))) (sb.fsbtodb r.start))
                  (sb.fsbtodb sb.s_first_data_block), sb.fsbtodb r.size⟩ : Extent) =
                ⟨start + sb.perBlock * (sb.groupStart g + r.start), sb.perBlock * r.size⟩ := by
            intro r hr
            obtain ⟨hstart, hsize⟩ := mem_freeRuns hr
            have hlt : sb.perBlock * r.size < 2 ^ 32 :=
              calc _ ≤ 8 * sb.s_blocks_per_group := Nat.mul_le_mul hper8 (by omega)
                _ < 2 ^ 32 := by
                  have := hext.per_group
                  have hsize : sb.blockSize = 512 * sb.perBlock := hblocksize
                  omega
            rw [(sb.addskip_start hp hfit (by omega)).2.2, sb.fsbtodb_of_lt hlt]
          rw [List.map_congr_left hskips, covered_blocks _ _ hp hlo, covered_freeRuns bitmap (Nat.le_add_right _ _)]
          refine and_congr_right fun hle => ?_
          constructor
          · rintro ⟨-, hlt, hclear⟩
            exact ⟨by omega, hclear⟩
          · rintro ⟨hlt, hclear⟩
            exact ⟨Nat.zero_le _, by omega, hclear⟩

/-- What the loop finds before a group: if descriptors have been read, they are in the buffer. -/
def BufferAt (disk : Disk) (sb : Super) (start i soff : Nat) (groups : List Byte) : Prop :=
  let base := sectobytes start + (sb.s_first_data_block + 1) * sb.blockSize
  let gbx := i / (sb.blockSize / EXT4_MIN_DESC_SIZE)
  if i % (sb.blockSize / EXT4_MIN_DESC_SIZE) = 0 then soff = base + gbx * sb.blockSize
  else soff = base + (gbx + 1) * sb.blockSize ∧ groups = readBytes disk.byte (base + gbx * sb.blockSize) sb.blockSize

theorem Super.IsExt.blockSize_mod (hext : sb.IsExt) :
    sb.blockSize = EXT4_MIN_DESC_SIZE * (sb.blockSize / EXT4_MIN_DESC_SIZE) ∧ 0 < sb.blockSize / EXT4_MIN_DESC_SIZE := by
  obtain ⟨h, hper, -⟩ := hext.blockSize_eq
  have h : sb.blockSize = 512 * sb.perBlock := h
  show sb.blockSize = 32 * (sb.blockSize / 32) ∧ 0 < sb.blockSize / 32
  omega

theorem decodeGroup_eq (hext : sb.IsExt) (i : Nat) :
    decodeGroup (readBytes disk.byte (sectobytes start + (sb.s_first_data_block + 1) * sb.blockSize +
        i / (sb.blockSize / EXT4_MIN_DESC_SIZE) * sb.blockSize) sb.blockSize)
      (i % (sb.blockSize / EXT4_MIN_DESC_SIZE) * EXT4_MIN_DESC_SIZE) = descOf disk sb start i := by
  obtain ⟨hsize, hpos⟩ := hext.blockSize_mod
  have hlt := Nat.mod_lt i hpos
  have hdiv := Nat.div_add_mod i (sb.blockSize / EXT4_MIN_DESC_SIZE)
  generalize sb.blockSize / EXT4_MIN_DESC_SIZE = d at *
  have hpos : i / d * sb.blockSize + i % d * EXT4_MIN_DESC_SIZE = i * EXT4_MIN_DESC_SIZE := by
    calc i / d * sb.blockSize + i % d * EXT4_MIN_DESC_SIZE = (d * (i / d) + i % d) * EXT4_MIN_DESC_SIZE := by
          rw [hsize]
          ring
      _ = i * EXT4_MIN_DESC_SIZE := by rw [hdiv]
  rw [decodeGroup_readBytes]
  · unfold descOf
    rw [Nat.add_assoc _ (i / d * sb.blockSize), hpos]
  · have hsize : sb.blockSize = 32 * d := hsize
    show i % d * 32 + 32 ≤ sb.blockSize
    omega

theorem BufferAt.next {i soff : Nat} {groups : List Byte}
    (hsoff : soff = sectobytes start + (sb.s_first_data_block + 1) * sb.blockSize +
      (i / (sb.blockSize / EXT4_MIN_DESC_SIZE) + 1) * sb.blockSize)
    (hgroups : groups = readBytes disk.byte (sectobytes start + (sb.s_first_data_block + 1) * sb.blockSize +
      i / (sb.blockSize / EXT4_MIN_DESC_SIZE) * sb.blockSize) sb.blockSize) :
    BufferAt disk sb start (i + 1) soff groups := by
  unfold BufferAt
  dsimp only
  by_cases hdvd : sb.blockSize / EXT4_MIN_DESC_SIZE ∣ i + 1
  · rw [if_pos (Nat.mod_eq_zero_of_dvd hdvd), Nat.succ_div_of_dvd hdvd]
    exact hsoff
  · rw [if_neg (mt Nat.dvd_of_mod_eq_zero hdvd), Nat.succ_div_of_not_dvd hdvd]
    exact ⟨hsoff, hgroups⟩

theorem readGroups_spec (hext : sb.IsExt) (hfit : start + sb.perBlock * sb.s_blocks_count_lo ≤ 2 ^ 32)
    {left i soff : Nat} {groups : List Byte} (hleft : ∀ g < i + left, sb.groupStart g < sb.s_blocks_count_lo)
    (hbuffer : BufferAt disk sb start i soff groups) {skips : List Extent}
    (h : readGroups disk sb start left i soff groups = (true, skips)) {x : Nat} (hlo : start ≤ x)
    (hx : (x - start) / sb.perBlock < sb.s_blocks_count_lo) :
    Extent.Covered skips x ↔ ∃ g, i ≤ g ∧ g < i + left ∧ SkippedBy disk sb start g ((x - start) / sb.perBlock) := by
  induction left generalizing i soff groups skips with
  | zero =>
    obtain ⟨-, rfl⟩ := Prod.mk.inj h
    simp only [Extent.covered_nil, false_iff]
    rintro ⟨g, hig, hgi, -⟩
    omega
  | succ left ih =>
    -- in both cases the buffer holds the descriptors that the group's one is among
    have hload : ∀ read, (if i % (sb.blockSize / EXT4_MIN_DESC_SIZE) = 0 then
          (devread disk soff sb.blockSize).map (·, soff + sb.blockSize) else some (groups, soff)) = some read →
        read.2 = sectobytes start + (sb.s_first_data_block + 1) * sb.blockSize +
            (i / (sb.blockSize / EXT4_MIN_DESC_SIZE) + 1) * sb.blockSize ∧
          read.1 = readBytes disk.byte (sectobytes start + (sb.s_first_data_block + 1) * sb.blockSize +
            i / (sb.blockSize / EXT4_MIN_DESC_SIZE) * sb.blockSize) sb.blockSize := by
      intro read hread
      unfold BufferAt at hbuffer
      dsimp only at hbuffer
      split at hread
      · rename_i hmod
        rw [if_pos hmod] at hbuffer
        obtain ⟨buffer, hdev, rfl⟩ := map_eq_some_iff.mp hread
        subst hbuffer
        refine ⟨?_, eq_of_devread hdev⟩
        dsimp only
        rw [Nat.succ_mul (i / _)]
        exact Nat.add_assoc _ _ _
      · rename_i hmod
        rw [if_neg hmod] at hbuffer
        obtain rfl := some.inj hread
        exact hbuffer
    unfold readGroups at h
    dsimp only at h
    split at h
    · cases h
    · rename_i groups' soff' hread
      obtain ⟨hsoff, hgroups⟩ := hload _ hread
      dsimp only at hsoff hgroups
      rw [hgroups, decodeGroup_eq hext] at h
      cases hgroup : readExt4group disk sb (descOf disk sb start i) i start with
      | none =>
        rw [hgroup] at h
        cases h
      | some skips₁ =>
        rw [hgroup] at h
        obtain ⟨hrest, rfl⟩ := Prod.mk.inj h
        have hcovered₁ := readExt4group_spec hext hfit (hleft i (by omega)) hgroup hlo hx
        have hcovered₂ := ih (fun g hg => hleft g (by omega)) (BufferAt.next hsoff rfl) (Prod.ext hrest rfl)
        rw [Extent.covered_append, hcovered₁, hcovered₂]
        constructor
        · rintro (h | ⟨g, hlo, hhi, h⟩)
          · exact ⟨i, le_refl i, by omega, h⟩
          · exact ⟨g, by omega, by omega, h⟩
        · rintro ⟨g, hlo, hhi, h⟩
          rcases Nat.eq_or_lt_of_le hlo with rfl | hlt
          · exact Or.inl h
          · exact Or.inr ⟨g, hlt, by omega, h⟩

end

/-! ## Section 7: The whole slice -/

section

variable {disk : Disk} {slice : Slice} {sb : Super}

theorem Super.numgroups_eq (hext : sb.IsExt) (hbpg : 0 < sb.s_blocks_per_group)
    (hfit : sb.perBlock * sb.s_blocks_count_lo < 2 ^ 32) : sb.numgroups = sb.groups := by
  obtain ⟨hsize, hper, hper8⟩ := hext.blockSize_eq
  have hsize : sb.blockSize = 512 * sb.perBlock := hsize
  have hmul := Nat.mul_le_mul_right sb.s_blocks_count_lo hper
  have hfirst := hext.first_le
  have hblocks := hext.nonempty
  have hgroup := hext.per_group
  have hsum : addU32 (subU32 sb.s_blocks_count_lo sb.s_first_data_block) (subU32 sb.s_blocks_per_group 1) =
      sb.s_blocks_count_lo - sb.s_first_data_block + (sb.s_blocks_per_group - 1) := by
    rw [subU32_of_le (by omega) (by omega), subU32_of_le (by omega) (by omega), addU32_of_lt (by omega)]
  -- each group has a block
  have hlt : sb.groups < 2 ^ 31 := by
    rcases Nat.eq_zero_or_pos sb.groups with hzero | hpos
    · omega
    · have hlast := sb.groupStart_lt hbpg (by omega) (Nat.sub_lt hpos (Nat.zero_lt_one))
      unfold Super.groupStart at hlast
      have := Nat.le_mul_of_pos_right (sb.groups - 1) hbpg
      omega
  unfold Super.numgroups
  dsimp only
  rw [hsum]
  exact if_pos hlt

theorem Super.IsExt.fssect_eq (hext : sb.IsExt) (hfit : sb.perBlock * sb.s_blocks_count_lo < 2 ^ 32) :
    bytestosec (sb.blockSize * sb.s_blocks_count_lo) % 2 ^ 32 = sb.perBlock * sb.s_blocks_count_lo := by
  unfold bytestosec
  rw [hext.blockSize_eq.1, Nat.mul_assoc, Nat.mul_div_cancel_left _ (by decide), Nat.mod_eq_of_lt hfit]

/-- Where the descriptors are. -/
theorem Super.IsExt.soff_eq (hext : sb.IsExt) :
    mulU32 (addU32 sb.s_first_data_block 1) sb.blockSize = (sb.s_first_data_block + 1) * sb.blockSize := by
  obtain ⟨hsize, -, hper8⟩ := hext.blockSize_eq
  have hsize : sb.blockSize = 512 * sb.perBlock := hsize
  have hfirst := hext.first_le
  rw [addU32_of_lt (by omega)]
  refine mulU32_of_lt ?_
  calc _ ≤ 2 * 4096 := Nat.mul_le_mul (by omega) (by omega)
    _ < 2 ^ 32 := by decide

theorem Super.groupOf_eq {g b : Nat} (hlo : sb.groupStart g ≤ b) (hhi : b < sb.groupStart g + sb.s_blocks_per_group) :
    sb.groupOf b = g := by
  unfold Super.groupStart at hlo hhi
  refine Nat.div_eq_of_lt_le (by omega) ?_
  rw [Nat.succ_mul]
  omega

theorem Super.groupOf_spec (hbpg : 0 < sb.s_blocks_per_group) {b : Nat} (hlo : sb.s_first_data_block ≤ b)
    (hhi : b < sb.s_blocks_count_lo) : sb.groupOf b < sb.groups ∧ sb.groupStart (sb.groupOf b) ≤ b ∧
      b < sb.groupStart (sb.groupOf b) + sb.s_blocks_per_group := by
  unfold Super.groupStart Super.groupOf Super.groups
  have hmod := Nat.mod_lt (b - sb.s_first_data_block) hbpg
  have hdiv := Nat.div_add_mod' (b - sb.s_first_data_block) sb.s_blocks_per_group
  refine ⟨?_, by omega, by omega⟩
  rw [Nat.div_lt_iff_lt_mul hbpg]
  have := Nat.lt_div_mul_add (a := sb.s_blocks_count_lo - sb.s_first_data_block + (sb.s_blocks_per_group - 1)) hbpg
  omega

/-- The sectors of the file system that are skipped are those that the groups tell to skip. -/
theorem readLinuxslice_spec {lilo excludenonfs : Bool} {skips : List Extent} (hsb : superOf disk slice.start = sb)
    (hext : sb.IsExt) (hfs : sb.blockSize * sb.s_blocks_count_lo ≤ sectobytes slice.size)
    (h : readLinuxslice disk lilo excludenonfs slice = .ok (true, skips)) :
    0 < sb.perBlock ∧ 0 < sb.s_blocks_per_group ∧ ∀ x, slice.start ≤ x → (x - slice.start) / sb.perBlock < sb.s_blocks_count_lo →
      (Extent.Covered skips x ↔ ∃ g < sb.groups, SkippedBy disk sb slice.start g ((x - slice.start) / sb.perBlock)) := by
  obtain ⟨hsize, hper, hper8⟩ := hext.blockSize_eq
  have hp : 0 < sb.perBlock := by omega
  have hsectors : sb.perBlock * sb.s_blocks_count_lo ≤ slice.size := by
    rw [hsize, Nat.mul_assoc] at hfs
    unfold sectobytes at hfs
    rw [Nat.mul_comm slice.size] at hfs
    exact Nat.le_of_mul_le_mul_left hfs (by decide)
  have := slice.size_lt
  have := slice.stop_le
  unfold readLinuxslice at h
  split at h
  · nomatch Except.ok.inj h
  · cases hread : devread disk (sectobytes slice.start + 1024) 1024 with
    | none =>
      rw [hread] at h
      nomatch Except.ok.inj h
    | some block =>
      rw [hread] at h
      have hblock := eq_of_devread hread
      dsimp only at h
      rw [show decodeSuper block = sb by rw [hblock]; exact hsb] at h
      split at h
      · nomatch Except.ok.inj h
      split at h
      · nomatch Except.ok.inj h
      split at h
      · nomatch Except.ok.inj h
      split at h
      · cases h
      rename_i hbpg
      have hbpg : 0 < sb.s_blocks_per_group := Nat.pos_of_ne_zero hbpg
      obtain ⟨hgroups, rfl⟩ := Prod.mk.inj (Except.ok.inj h)
      refine ⟨hp, hbpg, fun x hlo hx => ?_⟩
      have hx' : x < slice.start + sb.perBlock * sb.s_blocks_count_lo := by
        rw [Nat.div_lt_iff_lt_mul hp, Nat.mul_comm] at hx
        omega
      -- what is skipped behind the file system is not in it
      rw [Extent.covered_append, or_iff_right]
      · rw [sb.numgroups_eq hext hbpg (by omega), hext.soff_eq] at hgroups ⊢
        have hbuffer : BufferAt disk sb slice.start 0
            (sectobytes slice.start + (sb.s_first_data_block + 1) * sb.blockSize) [] := by
          unfold BufferAt
          dsimp only
          rw [Nat.zero_mod, if_pos rfl, Nat.zero_div, Nat.zero_mul]
          exact (Nat.add_zero _).symm
        have hstarts : ∀ g < 0 + sb.groups, sb.groupStart g < sb.s_blocks_count_lo :=
          fun g hg => sb.groupStart_lt hbpg (Nat.le_trans hext.first_le hext.nonempty) (by omega)
        rw [readGroups_spec hext (by omega) hstarts hbuffer (Prod.ext hgroups rfl) hlo hx]
        simp only [Nat.zero_le, true_and, Nat.zero_add]
      · rw [hext.fssect_eq (by omega)]
        split
        · rw [Extent.covered_cons, addU32_of_lt (by omega)]
          rintro (⟨hstart, -⟩ | hnil)
          · exact absurd hx' (Nat.not_lt.mpr hstart)
          · exact Extent.covered_nil x hnil
        · exact Extent.covered_nil x

/-- A file system that is accepted is read right if and only if the groups without bitmaps begin with
    their free blocks. -/
theorem skips_free_iff {lilo excludenonfs : Bool} {skips : List Extent} (hext : (superOf disk slice.start).IsExt)
    (hfs : (superOf disk slice.start).blockSize * (superOf disk slice.start).s_blocks_count_lo ≤ sectobytes slice.size)
    (h : readLinuxslice disk lilo excludenonfs slice = .ok (true, skips)) :
    (OnlyFree disk (superOf disk slice.start) slice.start skips ∧ AllClear disk (superOf disk slice.start) slice.start skips) ↔
      FreeFirst disk (superOf disk slice.start) slice.start := by
  obtain ⟨hp, hbpg, hcovered⟩ := readLinuxslice_spec rfl hext hfs h
  generalize superOf disk slice.start = sb at *
  have hlt : ∀ x, slice.start ≤ x → (x < slice.start + sb.perBlock * sb.s_blocks_count_lo ↔
      (x - slice.start) / sb.perBlock < sb.s_blocks_count_lo) := by
    intro x hlo
    rw [Nat.div_lt_iff_lt_mul hp, Nat.mul_comm]
    omega
  constructor
  · rintro ⟨honly, -⟩ g hg huninit k hk hblock
    -- the first sector of the block is skipped
    have hdiv : (slice.start + sb.perBlock * (sb.groupStart g + k) - slice.start) / sb.perBlock = sb.groupStart g + k := by
      rw [Nat.add_sub_cancel_left, Nat.mul_div_cancel_left _ hp]
    have hlo := Nat.le_add_right slice.start (sb.perBlock * (sb.groupStart g + k))
    have hfree := honly _ hlo ((hlt _ hlo).mpr (by rw [hdiv]; exact hblock))
    rw [hcovered _ hlo (by rw [hdiv]; exact hblock), hdiv] at hfree
    refine hfree ⟨g, hg, Nat.le_add_right _ _, ?_⟩
    rw [if_pos huninit]
    exact Nat.add_lt_add_left hk _
  · intro hfirst
    constructor
    · intro x hlo hhi hx
      rw [hlt x hlo] at hhi
      obtain ⟨g, hg, hstart, hskip⟩ := (hcovered x hlo hhi).mp hx
      generalize (x - slice.start) / sb.perBlock = b at *
      split at hskip
      · rename_i huninit
        have hfree := hfirst g hg huninit (b - sb.groupStart g) (by omega)
        rw [Nat.add_sub_cancel' hstart] at hfree
        exact hfree hhi
      · rename_i hinit
        refine ⟨Nat.le_trans (Nat.le_add_right _ _) hstart, hhi, ?_⟩
        rw [sb.groupOf_eq hstart hskip.1, if_neg hinit]
        exact hskip.2
    · intro b hlo hhi hinit hclear x hstart hx
      obtain ⟨hg, hgroup, hnext⟩ := sb.groupOf_spec hbpg hlo hhi
      rw [hcovered x hstart (hx ▸ hhi), hx]
      refine ⟨sb.groupOf b, hg, hgroup, ?_⟩
      rw [if_neg (by rw [hinit]; exact Bool.false_ne_true)]
      exact ⟨hnext, hclear⟩

end

/-- A file system of two groups of 16 blocks. Nothing but the superblocks, the descriptors, the bitmaps
    and the inode tables is in use, and the second group has no bitmap yet. -/
def twoGroups : Disk :=
  diskOf [(1028, 33), (1044, 1), (1056, 16), (1064, 8), (1080, 0x53), (1081, 0xef), (1100, 1), (1112, 128), (1120, 2),
    (1124, 0x11), (2048, 3), (2052, 4), (2056, 5), (2060, 11), (2080, 19), (2084, 20), (2088, 21), (2092, 11), (2098, 2),
    (3072, 0x1f)] 33792

def twoGroupsSlice : Slice := ⟨0, 66, by decide, by decide⟩

theorem twoGroups_ext : (superOf twoGroups twoGroupsSlice.start).IsExt := by decide +kernel

theorem twoGroups_fits :
    (superOf twoGroups twoGroupsSlice.start).blockSize * (superOf twoGroups twoGroupsSlice.start).s_blocks_count_lo ≤
      sectobytes twoGroupsSlice.size := by
  decide +kernel

theorem twoGroups_read :
    readLinuxslice twoGroups false false twoGroupsSlice = .ok (true, [⟨12, 22⟩, ⟨34, 22⟩]) := by decide +kernel

theorem twoGroups_skips_free_iff :
    (OnlyFree twoGroups (superOf twoGroups twoGroupsSlice.start) twoGroupsSlice.start [⟨12, 22⟩, ⟨34, 22⟩] ∧
        AllClear twoGroups (superOf twoGroups twoGroupsSlice.start) twoGroupsSlice.start [⟨12, 22⟩, ⟨34, 22⟩]) ↔
      FreeFirst twoGroups (superOf twoGroups twoGroupsSlice.start) twoGroupsSlice.start :=
  @skips_free_iff twoGroups twoGroupsSlice false false _ twoGroups_ext twoGroups_fits twoGroups_read

/-- The copy of the superblock at the begin of the second group is skipped. -/
theorem uninit_not_free : ¬∀ (disk : Disk) (lilo excludenonfs : Bool) (slice : Slice) (skips : List Extent),
    (superOf disk slice.start).IsExt →
      (superOf disk slice.start).blockSize * (superOf disk slice.start).s_blocks_count_lo ≤ sectobytes slice.size →
        readLinuxslice disk lilo excludenonfs slice = .ok (true, skips) →
          OnlyFree disk (superOf disk slice.start) slice.start skips ∧
            AllClear disk (superOf disk slice.start) slice.start skips := by
  intro h
  obtain ⟨honly, -⟩ := h _ _ _ twoGroupsSlice _ twoGroups_ext twoGroups_fits twoGroups_read
  have hblock : ¬IsFree twoGroups (superOf twoGroups twoGroupsSlice.start) twoGroupsSlice.start
      ((34 - twoGroupsSlice.start) / (superOf twoGroups twoGroupsSlice.start).perBlock) := by decide +kernel
  have hin : 34 < twoGroupsSlice.start + (superOf twoGroups twoGroupsSlice.start).perBlock *
      (superOf twoGroups twoGroupsSlice.start).s_blocks_count_lo := by decide +kernel
  exact hblock (honly 34 (Nat.zero_le _) hin (by decide))

end Emulab.Imagezip.Ext
