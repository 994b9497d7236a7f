import Emulab.Imagezip.Disk
import Emulab.Imagezip.NewSignature

/-! # Signature files

  A signature is written as it is in memory, a header and the regions, after
  the regions have been made relative to the partition. Reading the file
  adds the offset of the partition again. In the older version of the format
  the block size is that of the program, in the newer one it is in the
  header, in sectors.
-/

namespace Emulab.Imagezip

open MachineInt Outcome Extent List Option

/-! ## Section 1: Headers and regions as bytes -/

/-- Bytes in the header of a signature file. -/
abbrev SIZEOF_HASHINFO : Nat := 32

/-- Bytes in a region of a signature file. -/
abbrev SIZEOF_HASHREGION : Nat := 32

abbrev HASH_MAXSIZE : Nat := 20

/-- A `uint32_t` in memory. -/
def le32Bytes (n : Nat) : List Byte :=
  [BitVec.ofNat 8 n, BitVec.ofNat 8 (n / 2 ^ 8), BitVec.ofNat 8 (n / 2 ^ 16), BitVec.ofNat 8 (n / 2 ^ 24)]

/-- A string in an array of eight characters. -/
def magicBytes (s : String) : List Byte :=
  ((s.toList.map fun (c : Char) => BitVec.ofNat 8 c.toNat) ++ List.replicate 8 0).take 8

/-- The string in an array of eight characters. -/
def magicAt (b : List Byte) : String :=
  String.ofList (((b.take 8).takeWhile (· ≠ 0)).map fun (c : Byte) => Char.ofNat c.toNat)

/-- A hash in an array that has room for the longest one. -/
def hashBytes (hash : List Byte) : List Byte :=
  (hash ++ List.replicate HASH_MAXSIZE 0).take HASH_MAXSIZE

def HashRegion.encode (hreg : HashRegion) : List Byte :=
  le32Bytes hreg.region.start ++ (le32Bytes hreg.region.size ++
    (le32Bytes hreg.chunkno ++ hashBytes hreg.hash))

/-- A signature in memory. The eight bytes behind the block size are padding. -/
def HashInfo.encode (info : HashInfo) : List Byte :=
  magicBytes info.magic ++ (le32Bytes info.version ++ (le32Bytes info.hashtype ++
    (le32Bytes info.regions.length ++ (le32Bytes info.blksize ++ (List.replicate 8 0 ++
      info.regions.flatMap HashRegion.encode)))))

def hashregionAt (b : List Byte) : HashRegion where
  region := ⟨le32 b 0, le32 b 4⟩
  chunkno := le32 b 8
  hash := (b.drop 12).take HASH_MAXSIZE

/-- The regions that follow each other. -/
def hashregionsAt : Nat → List Byte → List HashRegion
  | 0, _ => []
  | n + 1, b => hashregionAt b :: hashregionsAt n (b.drop SIZEOF_HASHREGION)

/-! ## Section 2: Writing and reading -/

/-- Write the signature to its file. The regions are made relative to the partition. -/
def hashmapWriteHashfile (poffset : Nat) (nhinfo : Option HashInfo) :
    Except Failure (List Byte) := do
  assert (poffset ≠ 2 ^ 32 - 1)
  match nhinfo with
  | none => .error .error
  | some info =>
    assert (info.regions.all fun hreg =>
      hreg.region.size ≤ info.blksize && poffset ≤ hreg.region.start)
    let info : HashInfo := { info with regions := info.regions.map fun hreg =>
      { hreg with region := { hreg.region with start := subU32 hreg.region.start poffset } } }
    -- the count is an `int`; a negative one is more than can be written
    let count := toInt32 (SIZEOF_HASHINFO + info.regions.length * SIZEOF_HASHREGION)
    if count < 0 then .error .error else .ok (info.encode.take count.toNat)

def readHashfile (poffset : Nat) (file : List Byte) : Except Failure HashInfo := do
  assert (poffset ≠ 2 ^ 32 - 1)
  if file.length < SIZEOF_HASHINFO then
    .error .error
  else
    let nregions := le32 file 16
    let nregbytes := toInt32 (nregions * SIZEOF_HASHREGION)
    -- not enough memory, or not enough bytes in the file
    if nregbytes < 0 ∨ file.length < SIZEOF_HASHINFO + nregbytes.toNat then
      .error .error
    else do
      -- the loop goes over the regions of the header, read or not
      assert (nregbytes = nregions * SIZEOF_HASHREGION)
      readhashinfo poffset
        { magic := magicAt file
          version := le32 file 8
          hashtype := le32 file 12
          blksize := le32 file 20
          regions := hashregionsAt nregions (file.drop SIZEOF_HASHINFO) }

/-! ## Section 3: What is read from what was written -/

@[simp] theorem le32_le32Bytes (n : Nat) (b : List Byte) : le32 (le32Bytes n ++ b) 0 = n % 2 ^ 32 := by
  simp only [le32, le16, u8, le32Bytes, cons_append, nil_append, getD_cons_zero,
    getD_cons_succ, BitVec.toNat_ofNat]
  omega

/-- A word behind another one. -/
theorem le32_skip (n : Nat) (b : List Byte) (i : Nat) : le32 (le32Bytes n ++ b) (i + 4) = le32 b i := by
  simp only [le32, le16, u8, le32Bytes, cons_append, nil_append, getD_cons_succ]

@[simp] theorem drop_le32Bytes (n : Nat) (b : List Byte) (i : Nat) :
    (le32Bytes n ++ b).drop (i + 4) = b.drop i := by
  simp only [le32Bytes, cons_append, nil_append, drop_succ_cons]

@[simp] theorem length_le32Bytes (n : Nat) : (le32Bytes n).length = 4 := rfl

@[simp] theorem length_hashBytes (hash : List Byte) : (hashBytes hash).length = HASH_MAXSIZE := by
  simp [hashBytes]

@[simp] theorem HashRegion.length_encode (hreg : HashRegion) : hreg.encode.length = SIZEOF_HASHREGION := by
  simp [HashRegion.encode, HASH_MAXSIZE, SIZEOF_HASHREGION]

/-- The numbers of a region are 32 bits wide, and its hash has its full length. -/
structure HashRegion.Fits (hreg : HashRegion) (hashlen : Nat) : Prop where
  start : hreg.region.start < 2 ^ 32
  size : hreg.region.size < 2 ^ 32
  chunkno : hreg.chunkno < 2 ^ 32
  hash : hreg.hash.length = hashlen
  hashlen : hashlen ≤ HASH_MAXSIZE

theorem hashregionAt_encode {hreg : HashRegion} {hashlen : Nat} (h : hreg.Fits hashlen)
    (b : List Byte) : (hashregionAt (hreg.encode ++ b)).region = hreg.region ∧
      (hashregionAt (hreg.encode ++ b)).chunkno = hreg.chunkno ∧
      (hashregionAt (hreg.encode ++ b)).hash.take hashlen = hreg.hash := by
  have hlen := h.hash
  have hmax := h.hashlen
  unfold hashregionAt HashRegion.encode
  simp only [append_assoc]
  refine ⟨?_, ?_, ?_⟩
  · rw [le32_le32Bytes, le32_skip _ _ 0, le32_le32Bytes, Nat.mod_eq_of_lt h.start, Nat.mod_eq_of_lt h.size]
  · rw [le32_skip _ _ 4, le32_skip _ _ 0, le32_le32Bytes, Nat.mod_eq_of_lt h.chunkno]
  · rw [drop_le32Bytes _ _ 8, drop_le32Bytes _ _ 4, drop_le32Bytes _ _ 0, drop_zero]
    unfold hashBytes
    rw [take_append_of_le_length (by simp), take_take, take_take,
      take_append_of_le_length (by omega)]
    rw [take_of_length_le (by omega)]

def HashRegion.key (hashlen : Nat) (hreg : HashRegion) : Range × Nat × List Byte :=
  (hreg.region, hreg.chunkno, hreg.hash.take hashlen)

theorem hashregionsAt_encode {regions : List HashRegion} {hashlen : Nat} (h : ∀ r ∈ regions, r.Fits hashlen) :
    (hashregionsAt regions.length (regions.flatMap HashRegion.encode)).map (HashRegion.key hashlen) =
      regions.map (HashRegion.key hashlen) := by
  induction regions with
  | nil => rfl
  | cons r regions ih =>
    obtain ⟨hregion, hchunkno, hhash⟩ := hashregionAt_encode (h r mem_cons_self)
      (regions.flatMap HashRegion.encode)
    have hdrop : (r.encode ++ regions.flatMap HashRegion.encode).drop SIZEOF_HASHREGION =
        regions.flatMap HashRegion.encode := by
      rw [← r.length_encode, drop_left]
    have hfull : r.hash.take hashlen = r.hash := take_of_length_le (Nat.le_of_eq (h r mem_cons_self).hash)
    rw [flatMap_cons, length_cons, hashregionsAt, map_cons, map_cons, hdrop,
      ih fun r' hr' => h r' (mem_cons_of_mem _ hr')]
    unfold HashRegion.key
    rw [hregion, hchunkno, hhash, hfull]

theorem length_hashregionsAt (n : Nat) (b : List Byte) : (hashregionsAt n b).length = n := by
  induction n generalizing b with
  | zero => rfl
  | succ n ih => rw [hashregionsAt, length_cons, ih]

theorem length_flatMap_encode (regions : List HashRegion) :
    (regions.flatMap HashRegion.encode).length = regions.length * SIZEOF_HASHREGION := by
  induction regions with
  | nil => rfl
  | cons r regions ih =>
    rw [flatMap_cons, length_append, ih, r.length_encode, length_cons, Nat.add_mul]
    omega

theorem magicBytes_magic : magicBytes HASH_MAGIC = [46, 110, 100, 122, 115, 105, 103, 0] := by
  decide

theorem magicAt_magicBytes (b : List Byte) : magicAt (magicBytes HASH_MAGIC ++ b) = HASH_MAGIC := by
  rw [magicBytes_magic]
  rfl

theorem le32_magic (b : List Byte) (i : Nat) : le32 (magicBytes HASH_MAGIC ++ b) (i + 8) = le32 b i := by
  rw [magicBytes_magic]
  simp only [le32, le16, u8, cons_append, nil_append, getD_cons_succ]

/-- The number is in what has been kept of the bytes. -/
theorem le32_take {b : List Byte} {k i : Nat} (h : i + 4 ≤ k) : le32 (b.take k) i = le32 b i := by
  have hbyte : ∀ j, j < k → u8 (b.take k) j = u8 b j := by
    intro j hj
    unfold u8
    rw [getD_eq_getElem?_getD, List.getElem?_take_of_lt hj, getD_eq_getElem?_getD]
  unfold le32 le16
  simp (disch := omega) only [hbyte]

/-- The fields of the header. -/
theorem le32_encode (info : HashInfo) (h : info.magic = HASH_MAGIC) :
    le32 info.encode 8 = info.version % 2 ^ 32 ∧ le32 info.encode 12 = info.hashtype % 2 ^ 32 ∧
      le32 info.encode 16 = info.regions.length % 2 ^ 32 ∧
      le32 info.encode 20 = info.blksize % 2 ^ 32 := by
  unfold HashInfo.encode
  rw [h]
  refine ⟨?_, ?_, ?_, ?_⟩
  · rw [le32_magic _ 0, le32_le32Bytes]
  · rw [le32_magic _ 4, le32_skip _ _ 0, le32_le32Bytes]
  · rw [le32_magic _ 8, le32_skip _ _ 4, le32_skip _ _ 0, le32_le32Bytes]
  · rw [le32_magic _ 12, le32_skip _ _ 8, le32_skip _ _ 4, le32_skip _ _ 0, le32_le32Bytes]

theorem drop_encode {info : HashInfo} (h : info.magic = HASH_MAGIC) :
    info.encode.drop SIZEOF_HASHINFO = info.regions.flatMap HashRegion.encode := by
  unfold HashInfo.encode
  rw [h, magicBytes_magic]
  simp [le32Bytes, SIZEOF_HASHINFO]

theorem length_encode (info : HashInfo) (h : info.magic = HASH_MAGIC) :
    info.encode.length = SIZEOF_HASHINFO + info.regions.length * SIZEOF_HASHREGION := by
  unfold HashInfo.encode
  rw [h, magicBytes_magic]
  simp only [length_append, length_flatMap_encode, length_le32Bytes, length_replicate,
    length_cons, length_nil, SIZEOF_HASHINFO]
  omega

/-! ## Section 4: Round trips -/

/-- The block size that a signature is read with, in sectors. -/
def HashInfo.blockSectors (info : HashInfo) : Nat :=
  if info.version = HASH_VERSION_1 then bytestosec HASHBLK_SIZE else info.blksize

/-- The signature is the same: its regions on the disk with their chunk numbers and hashes, the
    hash type, and the block size that it was computed with. -/
structure ReadsBack (env : DeltaEnv) (info info' : HashInfo) : Prop where
  regions : info'.regions.map (HashRegion.key env.hashlen) =
    info.regions.map (HashRegion.key env.hashlen)
  hashtype : info'.hashtype = info.hashtype
  blksize : info'.blockSectors = env.hashblksize

/-- The signature can be written, and reading the file gives it back. -/
def RoundTrips (input : DeltaInput) (hfile : Option HashInfo) (info : HashInfo) : Prop :=
  ∃ file info', hashmapWriteHashfile input.poffset (some info) = .ok file ∧
    readHashfile input.poffset file = .ok info' ∧ ReadsBack (fileEnv input hfile) info info'

/-- The signature with its regions relative to the partition. -/
def relative (poffset : Nat) (info : HashInfo) : HashInfo :=
  { info with regions := info.regions.map fun hreg =>
    { hreg with region := { hreg.region with start := subU32 hreg.region.start poffset } } }

/-- The bytes of the file, as the code counts them. -/
def fileCount (info : HashInfo) : Int :=
  toInt32 (SIZEOF_HASHINFO + info.regions.length * SIZEOF_HASHREGION)

/-- What has been written when the function returns. -/
theorem hashmapWriteHashfile_ok {poffset : Nat} {info : HashInfo} {file : List Byte}
    (h : hashmapWriteHashfile poffset (some info) = .ok file) :
    0 ≤ fileCount info ∧ file = (relative poffset info).encode.take (fileCount info).toNat := by
  unfold hashmapWriteHashfile at h
  obtain ⟨_, -, h⟩ := bind_ok h
  obtain ⟨_, -, h⟩ := bind_ok h
  simp only [length_map] at h
  split at h
  · cases h
  · rename_i hcount
    have h := Except.ok.inj h
    unfold fileCount relative
    exact ⟨by omega, h.symm⟩

theorem readHashfile_ok {poffset : Nat} {file : List Byte} {info' : HashInfo}
    (h : readHashfile poffset file = .ok info') :
    SIZEOF_HASHINFO + le32 file 16 * SIZEOF_HASHREGION ≤ file.length ∧
      info'.regions.length = le32 file 16 ∧ info'.version = le32 file 8 ∧
      info'.blksize = le32 file 20 := by
  unfold readHashfile at h
  obtain ⟨_, -, h⟩ := bind_ok h
  split at h
  · cases h
  dsimp only at h
  split at h
  · cases h
  rename_i hbytes
  obtain ⟨_, hassert, h⟩ := bind_ok h
  have hwhole := of_decide_eq_true (assert_ok hassert)
  rw [hwhole] at hbytes
  unfold readhashinfo at h
  split at h
  · cases h
  obtain ⟨_, -, h⟩ := bind_ok h
  have h := Except.ok.inj h
  rw [← h]
  simp only [length_map, length_hashregionsAt, and_true]
  simp only [SIZEOF_HASHINFO, SIZEOF_HASHREGION] at *
  omega

/-- A signature of the newer version whose numbers fit is read as it was written. -/
theorem readHashfile_encode {poffset : Nat} (hashlen : Nat) (info : HashInfo)
    (hpoffset : poffset ≠ 2 ^ 32 - 1) (hmagic : info.magic = HASH_MAGIC)
    (hversion : info.version = HASH_VERSION_2) (hhashtype : info.hashtype < 2 ^ 32)
    (hblksize : info.blksize < 2 ^ 32)
    (hcount : SIZEOF_HASHINFO + info.regions.length * SIZEOF_HASHREGION < 2 ^ 31)
    (hfits : ∀ r ∈ info.regions, r.Fits hashlen) (hsizes : ∀ r ∈ info.regions, r.region.size ≤ info.blksize) :
    ∃ regions, readHashfile poffset info.encode = .ok { info with regions := regions } ∧
      regions.map (HashRegion.key hashlen) = info.regions.map fun hreg =>
        (⟨addU32 hreg.region.start poffset, hreg.region.size⟩, hreg.chunkno,
          hreg.hash.take hashlen) := by
  obtain ⟨h8, h12, h16, h20⟩ := le32_encode info hmagic
  have hlen := length_encode info hmagic
  have hdrop := drop_encode hmagic
  simp only [SIZEOF_HASHINFO, SIZEOF_HASHREGION] at hcount hlen hdrop
  have hkeys := hashregionsAt_encode hfits
  have hn : info.regions.length % 2 ^ 32 = info.regions.length := Nat.mod_eq_of_lt (by omega)
  have hbytes : toInt32 ((info.regions.length : Int) * (32 : Nat)) = info.regions.length * (32 : Nat) :=
    toInt32_of_range (by omega) (by omega)
  generalize hK : hashregionsAt info.regions.length (info.regions.flatMap HashRegion.encode) = K
    at hkeys
  have hK' : ∀ k ∈ K, k.region.size ≤ info.blksize := by
    intro k hk
    have hmem : HashRegion.key hashlen k ∈ info.regions.map (HashRegion.key hashlen) := by
      rw [← hkeys]
      exact mem_map_of_mem hk
    obtain ⟨r, hr, heq⟩ := mem_map.mp hmem
    have hregion : r.region = k.region := congrArg Prod.fst heq
    rw [← hregion]
    exact hsizes r hr
  refine ⟨K.map fun hreg =>
    { hreg with region := { hreg.region with start := addU32 hreg.region.start poffset } }, ?_, ?_⟩
  · have hmagic' : magicAt info.encode = HASH_MAGIC := by
      unfold HashInfo.encode
      rw [hmagic]
      exact magicAt_magicBytes _
    have hbegin : ¬info.encode.length < 32 := by omega
    have hrest : ¬((info.regions.length : Int) * (32 : Nat) < 0 ∨
        info.encode.length < 32 + ((info.regions.length : Int) * (32 : Nat)).toNat) := by omega
    unfold readHashfile
    simp only [SIZEOF_HASHINFO, SIZEOF_HASHREGION]
    rw [decide_eq_true hpoffset, assert_true, bind_of_ok rfl, if_neg hbegin]
    simp only [h8, h12, h16, h20, hn, hbytes, hmagic', hdrop, hK]
    rw [if_neg hrest, decide_true, assert_true, bind_of_ok rfl]
    unfold readhashinfo
    have hassert : (K.all fun hreg => decide (hreg.region.size ≤ info.blksize)) = true := by
      simpa using hK'
    rw [Nat.mod_eq_of_lt hhashtype, Nat.mod_eq_of_lt hblksize, hversion,
      show HASH_VERSION_2 % 2 ^ 32 = HASH_VERSION_2 by decide, if_neg (by simp)]
    simp only
    rw [if_neg (by decide), hassert, assert_true, bind_of_ok rfl, ← hmagic]
  · rw [List.map_map]
    have hcomp : (HashRegion.key hashlen ∘ fun hreg : HashRegion =>
        { hreg with region := { hreg.region with start := addU32 hreg.region.start poffset } }) =
        (fun k : Range × Nat × List Byte => (⟨addU32 k.1.start poffset, k.1.size⟩, k.2)) ∘
          HashRegion.key hashlen := rfl
    rw [hcomp, ← List.map_map, hkeys, List.map_map]
    rfl

/-! ## Section 5: New signatures -/

/-- The header of a new signature. -/
theorem hashmapComputeDelta_header (input : DeltaInput) (D : List Range)
    (hfile : Option HashInfo) (fixups : List Fixup) :
    Yields True (hashmapComputeDelta input D hfile fixups) fun r =>
      D ≠ [] ∧ (input.newhashfile = true → r.2.isSome = true) ∧
        ∀ info ∈ r.2, info.magic = HASH_MAGIC ∧ info.version = HASH_VERSION_2 ∧
          info.hashtype = (hfile.getD emptyHashInfo).hashtype ∧
          info.blksize = if (hfile.getD emptyHashInfo).version = HASH_VERSION_1 then HASHBLK_SIZE
            else (hfile.getD emptyHashInfo).blksize := by
  unfold hashmapComputeDelta
  apply Yields.bind (yields_assert (Or.inl trivial))
  intro _ hne
  have hne : D ≠ [] := by simpa using hne
  have hsig : Yields True (signature input.poffset hfile) fun hinfo =>
      hinfo.hashtype = (hfile.getD emptyHashInfo).hashtype ∧
        hinfo.version = (hfile.getD emptyHashInfo).version ∧
        hinfo.blksize = (hfile.getD emptyHashInfo).blksize := by
    unfold signature
    cases hfile with
    | none => exact ⟨rfl, rfl, rfl⟩
    | some hi =>
      unfold readhashinfo
      dsimp only
      split
      · trivial
      · apply Yields.bind (yields_assert (Or.inl trivial))
        intro _ _
        exact ⟨rfl, rfl, rfl⟩
  apply Yields.bind hsig
  intro hinfo hhinfo
  obtain ⟨htype, hversion, hblksize⟩ := hhinfo
  apply Yields.bind (yields_of_ok trivial fun _ _ => trivial)
  intro r _
  apply Yields.bind (yields_of_ok trivial fun _ _ => trivial)
  intro r' _
  obtain ⟨out, st⟩ := r'
  dsimp only
  split
  · apply Yields.bind (yields_assert (Or.inl trivial))
    intro _ _
    refine ⟨hne, fun _ => rfl, ?_⟩
    intro info hinfo
    obtain rfl := some.inj hinfo
    rw [← hversion, ← hblksize]
    exact ⟨rfl, rfl, htype, rfl⟩
  · rename_i hnew
    exact ⟨hne, fun htrue => absurd htrue hnew, fun info hinfo => nomatch hinfo⟩

/-- The digests have the length that they are documented to have. -/
structure Digests (input : DeltaInput) : Prop where
  md5 : ∀ data, (input.md5 data).length = 16
  sha1 : ∀ data, (input.sha1 data).length = 20

theorem Digests.length_hashfunc {input : DeltaInput} (h : Digests input) (hfile : Option HashInfo)
    (data : List Byte) : ((fileEnv input hfile).hashfunc data).length =
      (fileEnv input hfile).hashlen ∧ (fileEnv input hfile).hashlen ≤ HASH_MAXSIZE := by
  unfold fileEnv deltaEnv
  simp only
  split
  · exact ⟨h.sha1 data, by decide⟩
  · exact ⟨h.md5 data, by decide⟩

/-- The signature with chunk numbers in the place of those of `hashmap_compute_delta`. -/
structure Renumbered (info : HashInfo) (regions : List HashRegion) : Prop where
  same : regions.map (fun r => (r.region, r.hash)) = info.regions.map fun r => (r.region, r.hash)
  chunkno : ∀ r ∈ regions, r.chunkno < 2 ^ 32

theorem Renumbered.exists_mem {info : HashInfo} {regions : List HashRegion}
    (h : Renumbered info regions) {r : HashRegion} (hr : r ∈ regions) :
    ∃ r₀ ∈ info.regions, r₀.region = r.region ∧ r₀.hash = r.hash := by
  have hmem : (r.region, r.hash) ∈ info.regions.map fun r => (r.region, r.hash) := by
    rw [← h.same]
    exact mem_map_of_mem hr
  obtain ⟨r₀, hr₀, heq⟩ := mem_map.mp hmem
  exact ⟨r₀, hr₀, congrArg Prod.fst heq, congrArg Prod.snd heq⟩

/-- What a caller gives for a signature that is to be written. -/
structure WriteArgs (input : DeltaInput) (D : List Range) (hfile : Option HashInfo)
    (fixups : List Fixup) : Prop extends SignArgs input D hfile fixups where
  digests : Digests input
  /-- In the file, the hash type and the block size are 32 bits wide. -/
  fields : ∀ hi ∈ hfile, hi.hashtype < 2 ^ 32 ∧ hi.blksize < 2 ^ 32

/-- The block size that the header of a new signature gives, in sectors, is that of its hashes
    unless the input signature is of the older version. -/
theorem blksize_eq_iff (input : DeltaInput) (hfile : Option HashInfo) :
    (if (hfile.getD emptyHashInfo).version = HASH_VERSION_1 then HASHBLK_SIZE
      else (hfile.getD emptyHashInfo).blksize) = (fileEnv input hfile).hashblksize ↔
      ∀ hi ∈ hfile, hi.version ≠ HASH_VERSION_1 := by
  unfold fileEnv deltaEnv
  simp only
  cases hfile with
  | none => simp [emptyHashInfo]
  | some hi =>
    simp only [getD_some, mem_some_iff, forall_eq']
    by_cases hversion : hi.version = HASH_VERSION_1
    · rw [if_pos hversion, if_pos hversion]
      constructor
      · intro heq
        exact absurd heq (by decide)
      · intro hne
        exact absurd hversion hne
    · rw [if_neg hversion, if_neg hversion]
      exact ⟨fun _ => hversion, fun _ => rfl⟩

/-- Read back, a signature has the block size of its header and as many regions as the file has room for. -/
theorem RoundTrips.bounds {input : DeltaInput} {hfile : Option HashInfo} {info : HashInfo}
    (h : RoundTrips input hfile info) (hmagic : info.magic = HASH_MAGIC)
    (hversion : info.version = HASH_VERSION_2) (hblksize : info.blksize < 2 ^ 32) :
    info.blksize = (fileEnv input hfile).hashblksize ∧
      SIZEOF_HASHINFO + info.regions.length * SIZEOF_HASHREGION < 2 ^ 31 := by
  obtain ⟨file, info', hwrite, hread, hback⟩ := h
  obtain ⟨hcount, hfile'⟩ := hashmapWriteHashfile_ok hwrite
  obtain ⟨hlen, hregions, hversion', hblksize'⟩ := readHashfile_ok hread
  have hcount' : fileCount info < 2 ^ 31 := (toInt32_range _).2
  have hshort : file.length ≤ (fileCount info).toNat := by
    rw [hfile']
    exact length_take_le _ _
  simp only [SIZEOF_HASHINFO, SIZEOF_HASHREGION] at hlen ⊢
  generalize fileCount info = count at hcount hcount' hfile' hshort
  have hbegin : 32 ≤ count.toNat := Nat.le_trans (Nat.le_add_right 32 _) (Nat.le_trans hlen hshort)
  -- the header is in what has been written
  have hfield : ∀ i, i + 4 ≤ 32 → le32 file i = le32 (relative input.poffset info).encode i := by
    intro i hi
    rw [hfile']
    exact le32_take (Nat.le_trans hi hbegin)
  obtain ⟨h8, -, h16, h20⟩ := le32_encode (relative input.poffset info) hmagic
  constructor
  · have hsectors := hback.blksize
    unfold HashInfo.blockSectors at hsectors
    rw [hversion', hfield 8 (by decide), h8, hblksize', hfield 20 (by decide), h20] at hsectors
    have hversion₂ : (relative input.poffset info).version % 2 ^ 32 = HASH_VERSION_2 := by
      change info.version % 2 ^ 32 = HASH_VERSION_2
      rw [hversion]
      decide
    have hblksize₂ : (relative input.poffset info).blksize % 2 ^ 32 = info.blksize :=
      Nat.mod_eq_of_lt hblksize
    rw [hversion₂, if_neg (by decide), hblksize₂] at hsectors
    exact hsectors
  · have hsame : info'.regions.length = info.regions.length := by
      have hkeys := congrArg List.length hback.regions
      rwa [length_map, length_map] at hkeys
    rw [← hsame, hregions]
    clear hversion hback h8 h16 h20 hsame hregions hfield
    omega

/-- A disk of zeros whose signature is wanted. -/
def zeroWrite : DeltaInput := { zeroDisk with newhashfile := true }

/-- The signature of the second sector in the older version, whose header has no block size. -/
def oldSignature : HashInfo := { zeroSignature with version := HASH_VERSION_1, blksize := 0 }

/-- The signature of the second sector, in either version. -/
theorem zeroWrite_args {hi : HashInfo} (hregions : hi.regions = zeroSignature.regions)
    (hblk : (fileEnv zeroWrite (some hi)).hashblksize = 128) (hhashtype : hi.hashtype < 2 ^ 32)
    (hblksize : hi.blksize < 2 ^ 32) : WriteArgs zeroWrite [⟨0, 3⟩] (some hi) [] := by
  have hdisk : diskRegions zeroWrite.poffset (some hi) = zeroSignature.regions := by
    unfold diskRegions
    simp only [getD_some, hregions]
    rfl
  constructor
  · constructor
    · constructor
      · exact ⟨by simp, by simp⟩
      · simp [stop]
      · rw [hdisk]
        exact ⟨by decide, pairwise_singleton _ _⟩
      · rw [hdisk]
        decide
      · exact List.Pairwise.nil
    · exact fun d _ => Nat.zero_le _
    · rw [getD_some, hregions, hblk]
      decide
    · intro fp hfp
      exact absurd hfp not_mem_nil
  · exact ⟨fun _ => rfl, fun _ => rfl⟩
  · intro hi' hhi'
    obtain rfl := some.inj hhi'
    exact ⟨hhashtype, hblksize⟩

theorem exists_zeroWrite {hi : HashInfo} (hargs : WriteArgs zeroWrite [⟨0, 3⟩] (some hi) [])
    (hregions : hi.regions = zeroSignature.regions)
    (hblk : (fileEnv zeroWrite (some hi)).hashblksize = 128) (hmagic : hi.magic = HASH_MAGIC)
    (hversion : hi.version = HASH_VERSION_1 ∨ hi.version = HASH_VERSION_2) :
    ∃ ranges info, hashmapComputeDelta zeroWrite [⟨0, 3⟩] (some hi) [] = .ok (ranges, some info) := by
  have hdisk : diskRegions zeroWrite.poffset (some hi) = zeroSignature.regions := by
    unfold diskRegions
    simp only [getD_some, hregions]
    rfl
  have hcan : CanCompute zeroWrite [⟨0, 3⟩] (some hi) [] := by
    constructor
    · simp
    · intro hi' hhi'
      obtain rfl := some.inj hhi'
      exact ⟨hmagic, hversion⟩
    · rw [hdisk, hblk]
      decide
    · rw [hblk]
      exact Or.inr ⟨by decide, by decide, rfl⟩
  obtain ⟨r, hok, -⟩ := (hashmapComputeDelta_yields hargs.toDeltaArgs).returns (not_not_intro hcan)
  obtain ⟨ranges, newhash⟩ := r
  have hnew := ((hashmapComputeDelta_header _ _ _ _).of_ok hok).2.1 rfl
  cases newhash with
  | none => cases hnew
  | some info => exact ⟨ranges, info, hok⟩

/-- Chunk numbers that fit. -/
theorem renumbered_zero (info : HashInfo) :
    Renumbered info (info.regions.map fun r => { r with chunkno := 0 }) := by
  constructor
  · rw [List.map_map]
    rfl
  · intro r hr
    obtain ⟨r₀, -, rfl⟩ := mem_map.mp hr
    exact Nat.two_pow_pos 32

end Emulab.Imagezip
