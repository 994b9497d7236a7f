import Emulab.Imagezip.Disk

/-! # The reader of FAT file systems

  A cluster of a FAT file system is free if its entry in the FAT says so. Runs of free
  clusters are given to `addskip` as sectors of the disk.
-/

namespace Emulab.Imagezip.Fat

open MachineInt Outcome Option
open List hiding pure_def

/-! ## Section 1: The boot block -/

/-- What is kept from one slice to the next. -/
structure Glue where
  fat_offset : Nat
  fat_limit : Nat
  fatsecpersec : Nat
  /-- The first cluster of the current run of free ones. -/
  first : Nat
deriving DecidableEq

def Glue.init : Glue := ⟨0, 0, 0, 0⟩

/-- The entries of a FAT have 12, 16 or 28 bits. -/
inductive ClustMask
  | clust12
  | clust16
  | clust32
deriving DecidableEq

def ClustMask.mask : ClustMask → Nat
  | clust12 => 0xfff
  | clust16 => 0xffff
  | clust32 => 0xfffffff

abbrev CLUST_FREE : Nat := 0
abbrev CLUST_FIRST : Nat := 2
abbrev CLUST_RSRVD : Nat := 0xfffffff6
abbrev CLUST_BAD : Nat := 0xfffffff7

structure Bootblock where
  bpbBytesPerSec : Nat
  bpbSecPerClust : Nat
  bpbResSectors : Nat
  bpbFATs : Nat
  bpbRootDirEnts : Nat
  bpbMedia : Nat
  FATsecs : Nat
  /-- The FAT that is used, if only one is. -/
  ValidFat : Option Nat
  NumSectors : Nat
deriving DecidableEq

/-- `fat_lseek`: the position on the disk. -/
def fatLseek (g : Glue) (off : Nat) : Except Failure Nat := do
  let off := off + sectobytes g.fat_offset
  assert (g.fat_limit = 0 || off < sectobytes g.fat_limit)
  assert (off % SECSIZE = 0)
  return off

/-- It is a FAT32 file system. -/
def isFat32 (block : List Byte) : Bool := le16 block 17 = 0

def decodeBlock (block : List Byte) : Bootblock where
  bpbBytesPerSec := le16 block 11
  bpbSecPerClust := u8 block 13
  bpbResSectors := le16 block 14
  bpbFATs := u8 block 16
  bpbRootDirEnts := le16 block 17
  bpbMedia := u8 block 21
  FATsecs := if isFat32 block then le32 block 36 else le16 block 22
  ValidFat := if isFat32 block ∧ u8 block 40 / 128 = 1 then some (u8 block 40 % 16) else none
  NumSectors := if le16 block 19 ≠ 0 then le16 block 19 else le32 block 32

/-- Where the sector of cluster 0 would be. -/
def Bootblock.ClusterOffset (boot : Bootblock) : Nat :=
  subU32 (addU32
      (addU32 ((boot.bpbRootDirEnts * 32 + boot.bpbBytesPerSec - 1) / boot.bpbBytesPerSec) boot.bpbResSectors)
      (mulU32 boot.bpbFATs boot.FATsecs))
    (CLUST_FIRST * boot.bpbSecPerClust)

/-- The number behind the last cluster. -/
def Bootblock.NumClusters (boot : Bootblock) : Nat :=
  subU32 boot.NumSectors boot.ClusterOffset / boot.bpbSecPerClust

def clustMask (fat32 : Bool) (boot : Bootblock) : Option ClustMask :=
  if fat32 then some .clust32
  else if boot.NumClusters < CLUST_RSRVD &&& ClustMask.clust12.mask then some .clust12
  else if boot.NumClusters < CLUST_RSRVD &&& ClustMask.clust16.mask then some .clust16
  else none

def Bootblock.NumFatEntries (boot : Bootblock) : ClustMask → Nat
  | .clust32 => mulU32 boot.FATsecs boot.bpbBytesPerSec / 4
  | .clust16 => mulU32 boot.FATsecs boot.bpbBytesPerSec / 2
  | .clust12 => mulU32 (mulU32 boot.FATsecs boot.bpbBytesPerSec) 2 / 3

/-- The signature of the fsinfo block. -/
def fsinfoOk (fsinfo : List Byte) : Bool :=
  fsinfo.take 4 = [0x52, 0x52, 0x61, 0x41] && (fsinfo.drop 0x1e4).take 4 = [0x72, 0x72, 0x41, 0x61] &&
  u8 fsinfo 0x1fc = 0 && u8 fsinfo 0x1fd = 0 && u8 fsinfo 0x1fe = 0x55 && u8 fsinfo 0x1ff = 0xaa &&
  u8 fsinfo 0x3fc = 0 && u8 fsinfo 0x3fd = 0 && (u8 fsinfo 0x3fe = 0 || u8 fsinfo 0x3fe = 0x55) &&
  (u8 fsinfo 0x3ff = 0 || u8 fsinfo 0x3ff = 0xaa)

/-- The other blocks of a FAT32 file system can be read. A backup that differs is only reported. -/
def readFat32 (disk : Disk) (g : Glue) (block : List Byte) : Except Failure Bool :=
  if u8 block 42 ≠ 0 ∨ u8 block 43 ≠ 0 then .ok false
  else do
    let pos ← fatLseek g (le16 block 48 * le16 block 11)
    match devread disk pos 1024 with
    | none => return false
    | some fsinfo =>
      if !fsinfoOk fsinfo then return false
      else
        let pos ← fatLseek g (le16 block 50 * le16 block 11)
        return (devread disk pos 512).isSome

def checkGeometry (block : List Byte) : Except Failure (Option (Bootblock × ClustMask)) :=
  let boot := decodeBlock block
  -- a division by zero
  if boot.bpbBytesPerSec = 0 then .error .error
  else if boot.bpbBytesPerSec % 512 ≠ 0 then .ok none
  else if boot.bpbSecPerClust = 0 then .ok none
  else
    match clustMask (isFat32 block) boot with
    | none => .ok none
    | some mask => .ok (if boot.NumFatEntries mask < boot.NumClusters then none else some (boot, mask))

def readboot (disk : Disk) (g : Glue) (pos : Nat) : Except Failure (Option (Bootblock × ClustMask)) := do
  match devread disk pos 512 with
  | none => return none
  | some block =>
    if u8 block 510 ≠ 0x55 ∨ u8 block 511 ≠ 0xaa then return none
    else
      let ok ← if isFat32 block then readFat32 disk g block else pure true
      if ok then checkGeometry block else return none

/-! ## Section 2: The FAT -/

/-- The size of the buffer for a FAT. -/
def Bootblock.fatBytes (boot : Bootblock) : Nat := mulU32 boot.FATsecs boot.bpbBytesPerSec

/-- Where the FAT is in the slice. -/
def Bootblock.fatOffset (boot : Bootblock) : Nat :=
  addU32 boot.bpbResSectors (mulU32 (boot.ValidFat.getD 0) boot.FATsecs) * boot.bpbBytesPerSec

/-- `_readfat` -/
def readfatBytes (disk : Disk) (g : Glue) (boot : Bootblock) : Except Failure (Option (List Byte)) := do
  let pos ← fatLseek g boot.fatOffset
  return devread disk pos boot.fatBytes

/-- The FAT begins as it should. -/
def fatStart (boot : Bootblock) (mask : ClustMask) (buffer : List Byte) : Bool :=
  u8 buffer 0 = boot.bpbMedia && u8 buffer 1 = 0xff && u8 buffer 2 = 0xff &&
  match mask with
  | .clust12 => true
  | .clust16 => u8 buffer 3 = 0xff
  | .clust32 => u8 buffer 3 % 16 = 0xf && u8 buffer 4 = 0xff && u8 buffer 5 = 0xff && u8 buffer 6 = 0xff &&
      u8 buffer 7 % 16 = 0xf

/-- The calls of `addskip`, and the current run. -/
structure Scan where
  first : Nat
  skips : List Extent
deriving DecidableEq

/-- The sectors of some clusters, as the code computes them. -/
def skipOf (g : Glue) (boot : Bootblock) (startcl ncl : Nat) : Extent :=
  let start := addU32 (mulU32 startcl boot.bpbSecPerClust) boot.ClusterOffset
  let size := mulU32 ncl boot.bpbSecPerClust
  ⟨addU32 (if g.fatsecpersec ≠ 1 then start / g.fatsecpersec else start) g.fat_offset,
    if g.fatsecpersec ≠ 1 then size / g.fatsecpersec else size⟩

def fatAddskip (g : Glue) (boot : Bootblock) (startcl ncl : Nat) (skips : List Extent) :
    Except Failure (List Extent) := do
  let skip := skipOf g boot startcl ncl
  assert (g.fat_limit = 0 || addU32 skip.start skip.size ≤ g.fat_limit)
  return skips ++ [skip]

def checkclnum (g : Glue) (boot : Bootblock) (mask : ClustMask) (cl next : Nat) (s : Scan) : Except Failure Scan :=
  let next := if CLUST_RSRVD &&& mask.mask ≤ next then next ||| (2 ^ 32 - 1 - mask.mask) else next
  if next = CLUST_FREE then .ok (if s.first = 0 then { s with first := cl } else s)
  else if s.first ≠ 0 then do
    let skips ← fatAddskip g boot s.first (cl - s.first) s.skips
    return ⟨0, skips⟩
  else .ok s

/-- Decode the entries of the clusters that are left, which are in the buffer from a position on. -/
def readLoop (g : Glue) (boot : Bootblock) (mask : ClustMask) (buffer : List Byte) :
    (left cl p : Nat) → Scan → Except Failure (Nat × Scan)
  | 0, cl, _, s => .ok (cl, s)
  | left + 1, cl, p, s =>
    match mask with
    | .clust32 => do
      let s ← checkclnum g boot mask cl (le32 buffer p &&& ClustMask.clust32.mask) s
      readLoop g boot mask buffer left (cl + 1) (p + 4) s
    | .clust16 => do
      let s ← checkclnum g boot mask cl (le16 buffer p) s
      readLoop g boot mask buffer left (cl + 1) (p + 2) s
    | .clust12 => do
      -- two entries in three bytes
      let s ← checkclnum g boot mask cl (le16 buffer p &&& 0xfff) s
      match left with
      | 0 => return (cl + 1, s)
      | left + 1 =>
        let s ← checkclnum g boot mask (cl + 1) ((u8 buffer (p + 1) / 16 + u8 buffer (p + 2) * 16) &&& 0xfff) s
        readLoop g boot mask buffer left (cl + 2) (p + 3) s

/-- The bytes before the entry of the first cluster. -/
def ClustMask.skipped : ClustMask → Nat
  | clust12 => 3
  | clust16 => 4
  | clust32 => 8

/-- `readfat`: the calls of `addskip`, unless the FAT is not accepted. -/
def readfat (disk : Disk) (g : Glue) (boot : Bootblock) (mask : ClustMask) :
    Except Failure (Nat × Option (List Extent)) := do
  match ← readfatBytes disk g boot with
  | none => return (g.first, none)
  | some buffer =>
    if !fatStart boot mask buffer then return (g.first, none)
    else
      let (cl, s) ← readLoop g boot mask buffer (boot.NumClusters - CLUST_FIRST) CLUST_FIRST mask.skipped
        ⟨g.first, []⟩
      -- flush the skip list
      let s ← checkclnum g boot mask cl CLUST_BAD s
      return (s.first, some s.skips)

structure Slice where
  start : Nat
  size : Nat

/-- `read_fatslice`: what it leaves for the next slice, and the calls of `addskip` if the file
    system is accepted. -/
def readFatslice (disk : Disk) (g : Glue) (slice : Slice) : Except Failure (Glue × Option (List Extent)) := do
  let g := { g with
    fat_offset := slice.start
    fat_limit := if 0 < slice.size then addU32 slice.start slice.size else g.fat_limit }
  let pos ← fatLseek g 0
  match ← readboot disk g pos with
  | none => return (g, none)
  | some (boot, mask) =>
    let g := { g with fatsecpersec := boot.bpbBytesPerSec / SECSIZE }
    if g.fatsecpersec * SECSIZE ≠ boot.bpbBytesPerSec then return (g, none)
    else
      let (first, skips) ← readfat disk g boot mask
      return ({ g with first := first }, skips)

/-- Slices that are read one after another. -/
def readSlices (disk : Disk) : Glue → List Slice → Except Failure (List (Option (List Extent)))
  | _, [] => .ok []
  | g, slice :: slices => do
    let (g, skips) ← readFatslice disk g slice
    let rest ← readSlices disk g slices
    return skips :: rest

/-! ## Section 3: Free clusters -/

def fatEntry (buffer : List Byte) (cl : Nat) : ClustMask → Nat
  | .clust32 => le32 buffer (4 * cl) % 2 ^ 28
  | .clust16 => le16 buffer (2 * cl)
  | .clust12 => if cl % 2 = 0 then le16 buffer (cl + cl / 2) % 2 ^ 12 else le16 buffer (cl + cl / 2) / 2 ^ 4

/-- There is a cluster with that number, and its entry is free. -/
def IsFree (boot : Bootblock) (mask : ClustMask) (buffer : List Byte) (cl : Nat) : Prop :=
  cl < boot.NumClusters ∧ fatEntry buffer cl mask = CLUST_FREE

instance (boot : Bootblock) (mask : ClustMask) (buffer : List Byte) :
    DecidablePred (IsFree boot mask buffer) := fun _ => inferInstanceAs (Decidable (_ ∧ _))

def freeClusters (boot : Bootblock) (mask : ClustMask) (buffer : List Byte) : List Nat :=
  (List.range' CLUST_FIRST (boot.NumClusters - CLUST_FIRST)).filter fun cl => IsFree boot mask buffer cl

/-- The sector of the slice where the clusters begin, behind the FATs and the root directory. -/
def Bootblock.dataStart (boot : Bootblock) : Nat :=
  (boot.bpbRootDirEnts * 32 + boot.bpbBytesPerSec - 1) / boot.bpbBytesPerSec + boot.bpbResSectors +
    boot.bpbFATs * boot.FATsecs

/-- Sectors of the disk in a sector of the file system. -/
def Bootblock.perSec (boot : Bootblock) : Nat := boot.bpbBytesPerSec / SECSIZE

/-- The sectors of the disk that some clusters have. -/
def clusterSectors (start : Nat) (boot : Bootblock) (cl ncl : Nat) : Extent :=
  ⟨start + boot.perSec * (boot.dataStart + (cl - CLUST_FIRST) * boot.bpbSecPerClust),
    boot.perSec * (ncl * boot.bpbSecPerClust)⟩

theorem numbers_clusterSectors (start : Nat) (boot : Bootblock) {r : Extent} (h : CLUST_FIRST ≤ r.start) :
    (r.numbers.flatMap fun cl => (clusterSectors start boot cl 1).numbers) =
      (clusterSectors start boot r.start r.size).numbers := by
  obtain ⟨cl, n⟩ := r
  induction n generalizing cl with
  | zero => simp [Extent.numbers, clusterSectors]
  | succ n ih =>
    have hnext := ih (cl + 1) (Nat.le_succ_of_le h)
    unfold Extent.numbers at hnext ⊢
    rw [range'_succ, flatMap_cons, hnext]
    unfold clusterSectors
    dsimp only at h ⊢
    rw [Nat.succ_sub h, Nat.one_mul]
    have hsplit : boot.perSec * ((n + 1) * boot.bpbSecPerClust) =
        boot.perSec * boot.bpbSecPerClust + boot.perSec * (n * boot.bpbSecPerClust) := by ring
    rw [hsplit, ← range'_append_1]
    congr 2
    rw [Nat.succ_mul]
    ring

variable {boot : Bootblock}

/-- What the code makes of a run of clusters begins no later and is no larger than it should, and
    is right only if the sectors of the file system are those of the disk. -/
theorem skipOf_eq_iff {g : Glue} {cl ncl : Nat} (hcl : CLUST_FIRST ≤ cl)
    (hper : g.fatsecpersec = boot.perSec) (hpos : 0 < boot.perSec) (hspc : 0 < boot.bpbSecPerClust)
    (hncl : 0 < ncl) (hsize : ncl * boot.bpbSecPerClust < 2 ^ 32) :
    (skipOf g boot cl ncl).size ≤ (clusterSectors g.fat_offset boot cl ncl).size ∧
      (skipOf g boot cl ncl).start ≤ (clusterSectors g.fat_offset boot cl ncl).start ∧
      0 < (clusterSectors g.fat_offset boot cl ncl).size ∧
      (skipOf g boot cl ncl = clusterSectors g.fat_offset boot cl ncl ↔
        boot.perSec = 1 ∧ g.fat_offset + (boot.dataStart + (cl - CLUST_FIRST) * boot.bpbSecPerClust) < 2 ^ 32) := by
  have hstart : addU32 (mulU32 cl boot.bpbSecPerClust) boot.ClusterOffset =
      (boot.dataStart + (cl - CLUST_FIRST) * boot.bpbSecPerClust) % 2 ^ 32 := by
    have hcl' : cl * boot.bpbSecPerClust =
        (cl - CLUST_FIRST) * boot.bpbSecPerClust + CLUST_FIRST * boot.bpbSecPerClust := by
      rw [← Nat.add_mul, Nat.sub_add_cancel hcl]
    unfold Bootblock.ClusterOffset Bootblock.dataStart addU32 subU32 mulU32
    rw [hcl']
    omega
  have hmul : mulU32 ncl boot.bpbSecPerClust = ncl * boot.bpbSecPerClust := Nat.mod_eq_of_lt hsize
  have hpos' : 0 < ncl * boot.bpbSecPerClust := Nat.mul_pos hncl hspc
  unfold skipOf clusterSectors
  dsimp only
  rw [hstart, hmul, hper]
  generalize boot.dataStart + (cl - CLUST_FIRST) * boot.bpbSecPerClust = x
  generalize ncl * boot.bpbSecPerClust = k at hpos' hsize
  generalize boot.perSec = f at hpos
  by_cases hf : f = 1
  · subst hf
    simp only [ne_eq, not_true_eq_false, if_false, Nat.one_mul, Extent.mk.injEq, true_and, and_true, le_refl]
    unfold addU32
    refine ⟨?_, hpos', ?_⟩
    · omega
    · constructor <;> intro h <;> omega
  · have hf2 : 2 ≤ f := by omega
    have hk : k / f < f * k := by
      calc k / f < k := Nat.div_lt_self hpos' hf2
        _ ≤ f * k := Nat.le_mul_of_pos_left k hpos
    have hx : x % 2 ^ 32 / f ≤ f * x :=
      calc x % 2 ^ 32 / f ≤ x % 2 ^ 32 := Nat.div_le_self _ _
        _ ≤ x := Nat.mod_le _ _
        _ ≤ f * x := Nat.le_mul_of_pos_left x hpos
    simp only [ne_eq, hf, not_false_eq_true, if_true, Extent.mk.injEq, false_and, iff_false]
    refine ⟨hk.le, ?_, Nat.mul_pos hpos hpos', fun h => ?_⟩
    · calc addU32 (x % 2 ^ 32 / f) g.fat_offset ≤ x % 2 ^ 32 / f + g.fat_offset := Nat.mod_le _ _
        _ ≤ g.fat_offset + f * x := by rw [Nat.add_comm]; exact Nat.add_le_add_left hx _
    · exact hk.ne h.2

/-! ## Section 4: The scan of the FAT -/

def Scan.current (s : Scan) : Option Nat := if s.first = 0 then none else some s.first

/-- The clusters before `cl` have been looked at, and the runs among them that have ended have been
    given to `addskip`. -/
def ScannedTo (g : Glue) (boot : Bootblock) (P : Nat → Prop) [DecidablePred P] (cl : Nat) (s : Scan) : Prop :=
  ∃ runs, Extent.Scanned P CLUST_FIRST cl s.current runs ∧ s.skips = runs.map fun r => skipOf g boot r.start r.size

section

variable {g : Glue} {boot : Bootblock} {mask : ClustMask} {buffer : List Byte} {P : Nat → Prop} [DecidablePred P]

theorem reserved_eq_zero (mask : ClustMask) (next : Nat) :
    (if CLUST_RSRVD &&& mask.mask ≤ next then next ||| (2 ^ 32 - 1 - mask.mask) else next) = CLUST_FREE ↔
      next = 0 := by
  split
  · rename_i hle
    have hpos : 0 < CLUST_RSRVD &&& mask.mask := by cases mask <;> decide
    have hne : 2 ^ 32 - 1 - mask.mask ≠ 0 := by cases mask <;> decide
    constructor
    · intro h
      exact absurd (Nat.or_eq_zero_iff.mp h).2 hne
    · intro h
      omega
  · rfl

theorem checkclnum_scans {cl next : Nat} {s s' : Scan} (hs : ScannedTo g boot P cl s) (hnext : next = 0 ↔ P cl)
    (h : checkclnum g boot mask cl next s = .ok s') : ScannedTo g boot P (cl + 1) s' := by
  obtain ⟨runs, hruns, hskips⟩ := hs
  have hcl : cl ≠ 0 := by
    have : 2 ≤ cl := hruns.le
    omega
  have hfree := reserved_eq_zero mask next
  unfold checkclnum at h
  dsimp only at h
  generalize (if CLUST_RSRVD &&& mask.mask ≤ next then next ||| (2 ^ 32 - 1 - mask.mask) else next) = n at h hfree
  rw [hnext] at hfree
  by_cases hn : n = CLUST_FREE
  · rw [if_pos hn] at h
    have hP := hfree.mp hn
    obtain rfl := Except.ok.inj h
    refine ⟨runs, ?_, ?_⟩
    · have hextend := hruns.extend hP
      unfold Scan.current at hextend ⊢
      by_cases hfirst : s.first = 0
      · simpa [hfirst, hcl] using hextend
      · simpa [hfirst] using hextend
    · split <;> exact hskips
  · rw [if_neg hn] at h
    have hP : ¬P cl := fun hP => hn (hfree.mpr hP)
    split at h
    · rename_i hfirst
      obtain ⟨skips, hadd, h⟩ := bind_ok h
      obtain ⟨-, -, hadd⟩ := bind_ok hadd
      obtain rfl := Except.ok.inj h
      obtain rfl := Except.ok.inj hadd
      rw [Scan.current, if_neg hfirst] at hruns
      exact ⟨_, hruns.close hP, by rw [map_append, ← hskips]; rfl⟩
    · rename_i hfirst
      obtain rfl := Except.ok.inj h
      have hnone : s.current = none := if_pos (not_not.mp hfirst)
      rw [hnone] at hruns
      exact ⟨runs, hnone ▸ hruns.skip hP, hskips⟩

/-- Where the entry of a cluster is in the buffer. -/
def EntryAt (mask : ClustMask) (cl p : Nat) : Prop :=
  match mask with
  | .clust12 => cl % 2 = 0 ∧ p = cl + cl / 2
  | .clust16 => p = 2 * cl
  | .clust32 => p = 4 * cl

theorem readLoop_scans {left cl p : Nat} {s s' : Scan} {cl' : Nat} (hp : EntryAt mask cl p)
    (hleft : cl + left = max CLUST_FIRST boot.NumClusters) (hs : ScannedTo g boot (IsFree boot mask buffer) cl s)
    (h : readLoop g boot mask buffer left cl p s = .ok (cl', s')) :
    cl' = max CLUST_FIRST boot.NumClusters ∧ ScannedTo g boot (IsFree boot mask buffer) cl' s' := by
  induction left using Nat.strong_induction_on generalizing cl p s with
  | _ left ih =>
    cases left with
    | zero =>
      unfold readLoop at h
      obtain ⟨rfl, rfl⟩ := Prod.mk.inj (Except.ok.inj h)
      exact ⟨hleft, hs⟩
    | succ left =>
      -- there are more clusters than the first two numbers, so this is one of them
      have hlt : ∀ k, k ≤ left → CLUST_FIRST ≤ cl → cl + k < boot.NumClusters := by
        intro k hk hcl
        omega
      have hcl : CLUST_FIRST ≤ cl := by
        obtain ⟨runs, hruns, -⟩ := hs
        exact hruns.le
      unfold readLoop at h
      cases mask with
      | clust32 =>
        obtain rfl : p = 4 * cl := hp
        obtain ⟨s₁, hcheck, h⟩ := bind_ok h
        have hentry : le32 buffer (4 * cl) &&& ClustMask.clust32.mask = 0 ↔ IsFree boot .clust32 buffer cl := by
          unfold IsFree fatEntry ClustMask.mask
          rw [show (0xfffffff : Nat) = 2 ^ 28 - 1 from rfl, Nat.and_two_pow_sub_one_eq_mod]
          exact (and_iff_right (hlt 0 (Nat.zero_le _) hcl)).symm
        exact ih left (Nat.lt_succ_self _) (by show _ = _; ring) (by omega) (checkclnum_scans hs hentry hcheck) h
      | clust16 =>
        obtain rfl : p = 2 * cl := hp
        obtain ⟨s₁, hcheck, h⟩ := bind_ok h
        have hentry : le16 buffer (2 * cl) = 0 ↔ IsFree boot .clust16 buffer cl := by
          unfold IsFree fatEntry
          exact (and_iff_right (hlt 0 (Nat.zero_le _) hcl)).symm
        exact ih left (Nat.lt_succ_self _) (by show _ = _; ring) (by omega) (checkclnum_scans hs hentry hcheck) h
      | clust12 =>
        obtain ⟨heven, rfl⟩ : cl % 2 = 0 ∧ p = cl + cl / 2 := hp
        obtain ⟨s₁, hcheck, h⟩ := bind_ok h
        have hentry : le16 buffer (cl + cl / 2) &&& 0xfff = 0 ↔ IsFree boot .clust12 buffer cl := by
          unfold IsFree fatEntry
          rw [show (0xfff : Nat) = 2 ^ 12 - 1 from rfl, Nat.and_two_pow_sub_one_eq_mod]
          dsimp only
          rw [if_pos heven]
          exact (and_iff_right (hlt 0 (Nat.zero_le _) hcl)).symm
        have hs₁ := checkclnum_scans hs hentry hcheck
        cases left with
        | zero =>
          obtain ⟨rfl, rfl⟩ := Prod.mk.inj (Except.ok.inj h)
          exact ⟨hleft, hs₁⟩
        | succ left =>
          obtain ⟨s₂, hcheck₂, h⟩ := bind_ok h
          have hentry₂ : (u8 buffer (cl + cl / 2 + 1) / 16 + u8 buffer (cl + cl / 2 + 2) * 16) &&& 0xfff = 0 ↔
              IsFree boot .clust12 buffer (cl + 1) := by
            have hpos : cl + 1 + (cl + 1) / 2 = cl + cl / 2 + 1 := by omega
            have h1 := u8_lt buffer (cl + cl / 2 + 1)
            have h2 := u8_lt buffer (cl + cl / 2 + 2)
            unfold IsFree fatEntry
            rw [show (0xfff : Nat) = 2 ^ 12 - 1 from rfl, Nat.and_two_pow_sub_one_eq_mod]
            dsimp only
            rw [if_neg (by omega), hpos]
            rw [and_iff_right (hlt 1 (by omega) hcl)]
            unfold le16
            rw [Nat.add_assoc _ 1 1]
            generalize u8 buffer (cl + cl / 2 + 1) = lo at *
            generalize u8 buffer (cl + cl / 2 + (1 + 1)) = hi at *
            show _ ↔ (lo + hi * 2 ^ 8) / 2 ^ 4 = 0
            omega
          exact ih left (by omega) ⟨by omega, by omega⟩ (by omega) (checkclnum_scans hs₁ hentry₂ hcheck₂) h

theorem checkclnum_first {cl next : Nat} {s s' : Scan} (hnext : next ≠ 0)
    (h : checkclnum g boot mask cl next s = .ok s') : s'.first = 0 := by
  have hused := mt (reserved_eq_zero mask next).mp hnext
  unfold checkclnum at h
  dsimp only at h
  rw [if_neg hused] at h
  split at h
  · obtain ⟨skips, -, h⟩ := bind_ok h
    obtain rfl := Except.ok.inj h
    rfl
  · rename_i hfirst
    obtain rfl := Except.ok.inj h
    exact not_not.mp hfirst

end

/-! ## Section 5: Slices -/

/-- The file system of a slice: its boot block, the kind of its FAT, and the FAT. -/
def fatOf (disk : Disk) (start : Nat) : Option (Bootblock × ClustMask × List Byte) := do
  let block ← devread disk (sectobytes start) 512
  let boot := decodeBlock block
  let mask ← clustMask (isFat32 block) boot
  let buffer ← devread disk (sectobytes start + boot.fatOffset) boot.fatBytes
  return (boot, mask, buffer)

/-- Exactly the sectors of the free clusters are passed to `addskip`, each of them once. -/
def ExactlyFree (start : Nat) (boot : Bootblock) (mask : ClustMask) (buffer : List Byte) (skips : List Extent) : Prop :=
  (skips.flatMap Extent.numbers).Perm
    ((freeClusters boot mask buffer).flatMap fun cl => (clusterSectors start boot cl 1).numbers)

/-- Where there is a run of free clusters, the sectors of the file system are those of the disk, and
    the run begins at a sector whose number has 32 bits. -/
def SectorsAgree (start : Nat) (boot : Bootblock) (mask : ClustMask) (buffer : List Byte) : Prop :=
  ∀ a b, Extent.IsRun (· ∈ freeClusters boot mask buffer) a b →
    boot.perSec = 1 ∧ start + (boot.dataStart + (a - CLUST_FIRST) * boot.bpbSecPerClust) < 2 ^ 32

instance (start : Nat) (boot : Bootblock) (mask : ClustMask) (buffer : List Byte) (skips : List Extent) :
    Decidable (ExactlyFree start boot mask buffer skips) := inferInstanceAs (Decidable (List.Perm _ _))

theorem fatLseek_eq {g : Glue} {off pos : Nat} (h : fatLseek g off = .ok pos) :
    pos = off + sectobytes g.fat_offset := by
  obtain ⟨-, -, h⟩ := bind_ok h
  obtain ⟨-, -, h⟩ := bind_ok h
  exact (Except.ok.inj h).symm

variable {mask : ClustMask}

theorem checkGeometry_spec {block : List Byte} (h : checkGeometry block = .ok (some (boot, mask))) :
    boot = decodeBlock block ∧ clustMask (isFat32 block) boot = some mask ∧ 0 < boot.bpbBytesPerSec ∧
      boot.bpbBytesPerSec % 512 = 0 ∧ 0 < boot.bpbSecPerClust := by
  unfold checkGeometry at h
  dsimp only at h
  split_ifs at h with hbytes hmod hspc
  · nomatch Except.ok.inj h
  · nomatch Except.ok.inj h
  · cases hmask : clustMask (isFat32 block) (decodeBlock block) with
    | none =>
      rw [hmask] at h
      nomatch Except.ok.inj h
    | some m =>
      rw [hmask] at h
      have h := Except.ok.inj h
      split_ifs at h
      obtain ⟨rfl, rfl⟩ := Prod.mk.inj (some.inj h)
      exact ⟨rfl, hmask, Nat.pos_of_ne_zero hbytes, not_not.mp hmod, Nat.pos_of_ne_zero hspc⟩

theorem readboot_spec {disk : Disk} {g : Glue} {pos : Nat} (h : readboot disk g pos = .ok (some (boot, mask))) :
    ∃ block, devread disk pos 512 = some block ∧ checkGeometry block = .ok (some (boot, mask)) := by
  unfold readboot at h
  cases hblock : devread disk pos 512 with
  | none =>
    rw [hblock] at h
    nomatch Except.ok.inj h
  | some block =>
    rw [hblock] at h
    dsimp only at h
    split at h
    · nomatch Except.ok.inj h
    · split at h <;> obtain ⟨ok, -, h⟩ := bind_ok h <;> split at h
      · exact ⟨block, rfl, h⟩
      · nomatch Except.ok.inj h
      · exact ⟨block, rfl, h⟩
      · nomatch Except.ok.inj h

theorem NumClusters_mul_lt (boot : Bootblock) : boot.NumClusters * boot.bpbSecPerClust < 2 ^ 32 := by
  unfold Bootblock.NumClusters
  calc _ ≤ subU32 boot.NumSectors boot.ClusterOffset := Nat.div_mul_le_self _ _
    _ < 2 ^ 32 := Nat.mod_lt _ (by decide)

theorem readfat_spec {disk : Disk} {g : Glue} {first : Nat}
    {result : Option (List Extent)} (hg : g.first = 0) (h : readfat disk g boot mask = .ok (first, result)) :
    first = 0 ∧ ∀ skips, result = some skips → ∃ buffer runs,
      devread disk (boot.fatOffset + sectobytes g.fat_offset) boot.fatBytes = some buffer ∧
        Extent.Scanned (IsFree boot mask buffer) CLUST_FIRST (max CLUST_FIRST boot.NumClusters + 1) none runs ∧
        skips = runs.map fun r => skipOf g boot r.start r.size := by
  obtain ⟨read, hread, h⟩ := bind_ok h
  obtain ⟨pos, hpos, hread⟩ := bind_ok hread
  obtain rfl := fatLseek_eq hpos
  have hread := Except.ok.inj hread
  cases read with
  | none =>
    obtain ⟨rfl, rfl⟩ := Prod.mk.inj (Except.ok.inj h)
    exact ⟨hg, nofun⟩
  | some buffer =>
    dsimp only at h
    split at h
    · obtain ⟨rfl, rfl⟩ := Prod.mk.inj (Except.ok.inj h)
      exact ⟨hg, nofun⟩
    · obtain ⟨⟨cl, s⟩, hloop, h⟩ := bind_ok h
      obtain ⟨s', hflush, h⟩ := bind_ok h
      obtain ⟨rfl, rfl⟩ := Prod.mk.inj (Except.ok.inj h)
      have hfirst : s'.first = 0 := checkclnum_first (by decide) hflush
      refine ⟨hfirst, fun skips hskips => ?_⟩
      obtain rfl := some.inj hskips
      have hinit : ScannedTo g boot (IsFree boot mask buffer) CLUST_FIRST ⟨g.first, []⟩ :=
        ⟨[], by rw [Scan.current, if_pos hg]; exact Extent.scanned_init _ _, rfl⟩
      have hentry : EntryAt mask CLUST_FIRST mask.skipped := by cases mask <;> first | exact ⟨rfl, rfl⟩ | rfl
      have hleft : CLUST_FIRST + (boot.NumClusters - CLUST_FIRST) = max CLUST_FIRST boot.NumClusters := by
        have : CLUST_FIRST = 2 := rfl
        omega
      obtain ⟨rfl, hscanned⟩ := readLoop_scans hentry hleft hinit hloop
      -- the number behind the last cluster ends the last run
      have hbad : CLUST_BAD = 0 ↔ IsFree boot mask buffer (max CLUST_FIRST boot.NumClusters) := by
        refine iff_of_false (by decide) fun hfree => ?_
        exact absurd hfree.1 (Nat.not_lt.mpr (Nat.le_max_right _ _))
      obtain ⟨runs, hruns, hskips⟩ := checkclnum_scans hscanned hbad hflush
      rw [Scan.current, if_pos hfirst] at hruns
      exact ⟨buffer, runs, hread, hruns, hskips⟩

theorem flatMap_numbers_eq {buffer : List Byte} {runs : List Extent}
    (h : Extent.Scanned (IsFree boot mask buffer) CLUST_FIRST (max CLUST_FIRST boot.NumClusters + 1) none runs) :
    runs.flatMap Extent.numbers = freeClusters boot mask buffer := by
  have hnumbers := h.numbers
  rw [elim_none, append_nil, Extent.range'_sub_succ (Nat.le_max_left _ _), filter_append] at hnumbers
  rw [hnumbers, filter_cons_of_neg, filter_nil, append_nil]
  · unfold freeClusters
    congr 2
    have : CLUST_FIRST = 2 := rfl
    omega
  · simp only [decide_eq_true_eq]
    intro hfree
    exact absurd hfree.1 (Nat.not_lt.mpr (Nat.le_max_right _ _))

theorem isRun_free_iff {buffer : List Byte} {runs : List Extent} {a b : Nat}
    (h : Extent.Scanned (IsFree boot mask buffer) CLUST_FIRST (max CLUST_FIRST boot.NumClusters + 1) none runs) :
    Extent.IsRun (· ∈ freeClusters boot mask buffer) a b ↔ ∃ r ∈ runs, r.start = a ∧ r.stop = b := by
  rw [← h.separated.isRun_iff, ← flatMap_numbers_eq h]
  simp only [Extent.mem_flatMap_numbers]

/-- The sectors of the free clusters are passed if and only if the sectors of the file system are
    those of the disk, unless there are none. -/
theorem perm_clusterSectors_iff {g : Glue} {buffer : List Byte}
    {runs : List Extent} (hper : g.fatsecpersec = boot.perSec) (hpos : 0 < boot.perSec)
    (hspc : 0 < boot.bpbSecPerClust)
    (h : Extent.Scanned (IsFree boot mask buffer) CLUST_FIRST (max CLUST_FIRST boot.NumClusters + 1) none runs) :
    ExactlyFree g.fat_offset boot mask buffer (runs.map fun r => skipOf g boot r.start r.size) ↔
      SectorsAgree g.fat_offset boot mask buffer := by
  unfold ExactlyFree SectorsAgree
  have hrun : ∀ r ∈ runs, 0 < r.size ∧ CLUST_FIRST ≤ r.start ∧ r.size * boot.bpbSecPerClust < 2 ^ 32 := by
    intro r hr
    have hsize := h.separated.nonempty r hr
    have hmem : ∀ x, r.Has x → x ∈ freeClusters boot mask buffer := by
      intro x hx
      rw [← flatMap_numbers_eq h]
      exact mem_flatMap.mpr ⟨r, hr, Extent.mem_numbers.mpr hx⟩
    unfold freeClusters at hmem
    simp only [mem_filter, mem_range'_1] at hmem
    have hfirst := (hmem r.start ⟨le_refl _, Nat.lt_add_of_pos_right hsize⟩).1.1
    have hlast := (hmem (r.start + (r.size - 1)) ⟨Nat.le_add_right _ _, by unfold Extent.stop; omega⟩).1
    refine ⟨hsize, hfirst, ?_⟩
    calc r.size * boot.bpbSecPerClust ≤ boot.NumClusters * boot.bpbSecPerClust :=
          Nat.mul_le_mul_right _ (by omega)
      _ < 2 ^ 32 := NumClusters_mul_lt boot
  have hskip := fun r hr => skipOf_eq_iff (g := g) (hrun r hr).2.1 hper hpos hspc (hrun r hr).1 (hrun r hr).2.2
  have hsectors : ((freeClusters boot mask buffer).flatMap fun cl => (clusterSectors g.fat_offset boot cl 1).numbers) =
      runs.flatMap fun r => (clusterSectors g.fat_offset boot r.start r.size).numbers := by
    rw [← flatMap_numbers_eq h, flatMap_assoc]
    exact flatMap_congr fun r hr => numbers_clusterSectors _ boot (hrun r hr).2.1
  rw [hsectors, flatMap_map, Extent.perm_numbers_iff (fun r hr => (hskip r hr).1) (fun r hr => (hskip r hr).2.1)
    fun r hr => (hskip r hr).2.2.1]
  constructor
  · intro heq a b hab
    obtain ⟨r, hr, rfl, rfl⟩ := (isRun_free_iff h).mp hab
    exact (hskip r hr).2.2.2.mp (heq r hr)
  · intro hruns r hr
    exact (hskip r hr).2.2.2.mpr (hruns r.start r.stop ((isRun_free_iff h).mpr ⟨r, hr, rfl, rfl⟩))

theorem readFatslice_spec {disk : Disk} {g g' : Glue} {slice : Slice} {result : Option (List Extent)}
    (hg : g.first = 0) (h : readFatslice disk g slice = .ok (g', result)) :
    g'.first = 0 ∧ ∀ skips, result = some skips → ∃ boot mask buffer,
      fatOf disk slice.start = some (boot, mask, buffer) ∧
        (ExactlyFree slice.start boot mask buffer skips ↔ SectorsAgree slice.start boot mask buffer) := by
  unfold readFatslice at h
  obtain ⟨pos, hpos, h⟩ := bind_ok h
  obtain rfl := fatLseek_eq hpos
  obtain ⟨read, hboot, h⟩ := bind_ok h
  cases read with
  | none =>
    obtain ⟨rfl, rfl⟩ := Prod.mk.inj (Except.ok.inj h)
    exact ⟨hg, nofun⟩
  | some read =>
    obtain ⟨boot, mask⟩ := read
    dsimp only at h hboot
    split at h
    · obtain ⟨rfl, rfl⟩ := Prod.mk.inj (Except.ok.inj h)
      exact ⟨hg, nofun⟩
    · obtain ⟨⟨first, skips'⟩, hfat, h⟩ := bind_ok h
      obtain ⟨rfl, rfl⟩ := Prod.mk.inj (Except.ok.inj h)
      obtain ⟨hfirst, hspec⟩ := readfat_spec (by exact hg) hfat
      refine ⟨hfirst, fun skips hskips => ?_⟩
      obtain ⟨buffer, runs, hbuffer, hruns, rfl⟩ := hspec skips hskips
      obtain ⟨block, hblock, hgeometry⟩ := readboot_spec hboot
      obtain ⟨hdecode, hmask, hbytes, hmod, hspc⟩ := checkGeometry_spec hgeometry
      rw [Nat.zero_add] at hblock
      rw [Nat.add_comm] at hbuffer
      dsimp only at hbuffer
      refine ⟨boot, mask, buffer, ?_, ?_⟩
      · subst hdecode
        unfold fatOf
        simp only [hblock, bind_eq_bind, bind_some, hmask, hbuffer, pure_def]
      · refine perm_clusterSectors_iff (by exact rfl) ?_ hspc hruns
        show 0 < boot.bpbBytesPerSec / 512
        omega

/-- Slices that are read one after another: each file system that is accepted is read right if and
    only if the sectors agree. -/
theorem slices_exact_iff {disk : Disk} {slices : List Slice} {results : List (Option (List Extent))}
    (h : readSlices disk .init slices = .ok results) :
    List.Forall₂ (fun slice result => ∀ skips, result = some skips → ∃ boot mask buffer,
      fatOf disk slice.start = some (boot, mask, buffer) ∧
        (ExactlyFree slice.start boot mask buffer skips ↔ SectorsAgree slice.start boot mask buffer))
      slices results := by
  -- between two slices no run is open
  have hg : Glue.init.first = 0 := rfl
  generalize Glue.init = g at h hg
  induction slices generalizing g results with
  | nil =>
    obtain rfl := Except.ok.inj h
    exact .nil
  | cons slice slices ih =>
    obtain ⟨⟨g', result⟩, hslice, h⟩ := bind_ok h
    obtain ⟨rest, hrest, h⟩ := bind_ok h
    obtain rfl := Except.ok.inj h
    obtain ⟨hfirst, hspec⟩ := readFatslice_spec hg hslice
    exact .cons hspec (ih g' hrest hfirst)

/-- A FAT12 file system of six sectors, whose three clusters are free. -/
def floppy (bytesPerSec rootDirEnts : Nat) : Disk :=
  diskOf [(11, .ofNat 8 bytesPerSec), (12, .ofNat 8 (bytesPerSec / 256)), (13, 1), (14, 1), (16, 1),
    (17, .ofNat 8 rootDirEnts), (19, 6), (21, 0xf8), (22, 1), (510, 0x55), (511, 0xaa),
    (bytesPerSec, 0xf8), (bytesPerSec + 1, 0xff), (bytesPerSec + 2, 0xff)] (6 * bytesPerSec)

theorem floppy_exact_iff : List.Forall₂ (fun (slice : Slice) result => ∀ skips : List Extent, result = some skips → ∃ boot mask buffer,
      fatOf (floppy 512 16) slice.start = some (boot, mask, buffer) ∧
        (ExactlyFree slice.start boot mask buffer skips ↔ SectorsAgree slice.start boot mask buffer))
      [⟨0, 6⟩] [some [⟨3, 3⟩]] :=
  slices_exact_iff (by decide +kernel)

/-- With sectors of 1024 bytes, the sectors of other data are passed. -/
theorem large_sectors_not_exact : ¬∀ (disk : Disk) (slices : List Slice) (results : List (Option (List Extent))),
    readSlices disk .init slices = .ok results →
      List.Forall₂ (fun slice result => ∀ skips, result = some skips → ∃ boot mask buffer,
        fatOf disk slice.start = some (boot, mask, buffer) ∧ ExactlyFree slice.start boot mask buffer skips)
        slices results := by
  intro h
  have hread : readSlices (floppy 1024 32) .init [⟨0, 12⟩] = .ok [some [⟨1, 1⟩]] := by decide +kernel
  have hfat : ∀ fat ∈ fatOf (floppy 1024 32) 0, ¬ExactlyFree 0 fat.1 fat.2.1 fat.2.2 [⟨1, 1⟩] := by decide +kernel
  obtain ⟨boot, mask, buffer, heq, hexact⟩ := (forall₂_cons.mp (h _ _ _ hread)).1 _ rfl
  exact hfat _ heq hexact

end Emulab.Imagezip.Fat
