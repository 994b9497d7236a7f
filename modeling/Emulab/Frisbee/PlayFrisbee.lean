import Emulab.Frisbee.Packet
import Emulab.Frisbee.Sizes
import Emulab.Frisbee.WorkQueue
import Emulab.Lib.Outcome

/-! # The send loop of the server

  For each piece of work that is taken off the queue, `PlayFrisbee` reads
  the blocks from the file, as many at a time as fit into its buffer, and
  sends them. The last block of a file that is not an image may be short; it
  is padded with zeros.
-/

namespace Emulab.Frisbee

open MachineInt Outcome List Option

/-! ## Section 1: The server and its environment -/

/-- Number of blocks that are read at a time if the command line does not say otherwise. -/
abbrev SERVER_READ_SIZE : Int := 32

/-- Why the server exits. -/
inductive Fatal where
  | alloc
  | eof
  /-- Reading fails for too long. -/
  | busted
  /-- Less has been read than was asked for. -/
  | short
  | assertion
  | bounds
  | fuel
deriving DecidableEq

structure Buffer where
  size : Nat
  mem : Nat → Byte

/-- Copy `n` bytes into a buffer. -/
def Buffer.write (b : Buffer) (pos n : Nat) (data : Nat → Byte) : Except Fatal Buffer :=
  if pos + n ≤ b.size then
    .ok { b with mem := fun i => if pos ≤ i ∧ i < pos + n then data (i - pos) else b.mem i }
  else
    .error .bounds

/-- Copy `n` bytes out of a buffer. -/
def Buffer.read (b : Buffer) (pos n : Nat) : Except Fatal (Nat → Byte) :=
  if pos + n ≤ b.size then .ok fun i => b.mem (pos + i) else .error .bounds

structure ServerEnv where
  data : Nat → Byte
  filesize : Nat
  /-- The system calls that read, in the order in which they are made: an error, or how much
      is read at most, besides one byte. -/
  pread : Nat → Option Nat
  malloc : Nat → Bool
  /-- What is in memory that has just been allocated. -/
  garbage : Nat → Byte
  /-- The address that the network level puts into a packet. -/
  srcip : Nat

/-- What the server knows about the file. -/
structure FileInfo where
  sizes : Sizes
  filesize : Int
  blocks : Int
  /-- It has whole chunks only. -/
  isimage : Bool
deriving DecidableEq

/-- `FileInfo` of a file that is served. -/
def initFile (fsize : Int) : Option FileInfo := do
  let sizes ← initSizes MAXCHUNKSIZE MAXBLOCKSIZE fsize
  let csize ← chunkSize sizes (-1)
  let bsize ← blockSize sizes (-1) (-1)
  some { sizes := sizes, filesize := fsize, blocks := sizes.totalBlocks,
         isimage := fsize.tmod (toInt32 (bsize * csize)) = 0 }

/-- The read size; `arg` is the argument of the `-R` option, if that is given. -/
def readsizeOption : (arg : Option Int) → Int
  | none => SERVER_READ_SIZE
  | some arg => if arg = 0 ∨ MAXCHUNKSIZE < arg then MAXCHUNKSIZE else arg

/-- Try to read; what is left of the system call's number of bytes, and the next call. -/
def tryRead (pread : Nat → Option Nat) : (tries calls : Nat) → Option (Nat × Nat)
  | 0, _ => none
  | tries + 1, calls =>
    match pread calls with
    | some n => some (n, calls + 1)
    | none => tryRead pread tries (calls + 1)

/-- Wrap up pread with a retry mechanism to help protect against transient NFS errors. The
    buffer is written from `pos` on. -/
def mypread (env : ServerEnv) (nbytes offset pos count : Nat) (databuf : Buffer) (calls : Nat) :
    Except Fatal (Nat × Buffer × Nat) :=
  if nbytes = 0 then
    .ok (count, databuf, calls)
  else
    match tryRead env.pread 100 calls with
    | none => .error .busted
    | some (n, calls) =>
      if env.filesize ≤ offset then
        .error .eof
      else do
        let cc := min (n + 1) (min nbytes (env.filesize - offset))
        let databuf ← databuf.write pos cc fun i => env.data (offset + i)
        mypread env (nbytes - cc) (offset + cc) (pos + cc) (count + cc) databuf calls
termination_by nbytes
decreasing_by omega

/-! ## Section 2: The loop -/

/-- The variables of `PlayFrisbee`, and the packets that have been sent. -/
structure PlayState where
  offset : Int
  block : Int
  databuf : Buffer
  calls : Nat
  sent : List Packet

/-- The packet with block `j` of the buffer. If it is the last one and short, it is padded. -/
def blockPacket (env : ServerEnv) (databuf : Buffer) (chunk block readcount resid : Int)
    (j : Nat) : Except Fatal Packet := do
  let pad : Int := if resid ≠ 0 ∧ (j : Int) = readcount - 1 then resid else 0
  let count := MAXBLOCKSIZE - pad
  let buf ← databuf.read (j * MAXBLOCKSIZE) count.toNat
  .ok (mkPacket PKTTYPE_REQUEST env.srcip (.block chunk (toInt32 (block + j)) fun i =>
    if (i : Int) < count then buf i else 0))

/-- Read `readbytes` bytes, and send the `readcount` blocks that they are. -/
def sendWindow (env : ServerEnv) (chunk readcount readbytes resid : Int) (st : PlayState) :
    Except Fatal PlayState := do
  if st.offset < 0 then
    .error .busted
  else do
    let (count, databuf, calls) ←
      mypread env (toUInt64 readbytes) st.offset.toNat 0 0 st.databuf st.calls
    let cc := toInt32 count
    if cc ≤ 0 then
      .error .eof
    else if cc ≠ readbytes then
      .error .short
    else do
      let packets ← (List.range readcount.toNat).mapM (blockPacket env databuf chunk st.block readcount resid)
      .ok { offset := toInt64 (st.offset + readbytes), block := toInt32 (st.block + readcount)
            databuf := databuf, calls := calls, sent := st.sent ++ packets }

/-- One turn of the loop over the blocks; `none` if it is left. -/
def playWindow (env : ServerEnv) (info : FileInfo) (readsize chunk lastblock : Int)
    (st : PlayState) : Except Fatal (Option PlayState) := do
  let readcount := if readsize < toInt32 (lastblock - st.block) then readsize
    else toInt32 (lastblock - st.block)
  let readbytes := toInt32 (readcount * MAXBLOCKSIZE)
  if info.filesize < toInt64 (st.offset + readbytes) then
    -- the final partial block; a request beyond that is not answered
    let diff := toInt64 (toInt64 (st.offset + readbytes) - info.filesize)
    if info.isimage = false ∧ diff < MAXBLOCKSIZE then do
      let st ← sendWindow env chunk readcount (toInt32 (readbytes - diff)) (toInt32 diff) st
      .ok (some st)
    else
      .ok none
  else do
    let st ← sendWindow env chunk readcount readbytes 0 st
    .ok (some st)

def playLoop (env : ServerEnv) (info : FileInfo) (readsize chunk lastblock : Int) :
    (fuel : Nat) → PlayState → Except Fatal PlayState
  | 0, _ => .error .fuel
  | fuel + 1, st =>
    if st.block < lastblock then do
      match ← playWindow env info readsize chunk lastblock st with
      | some st => playLoop env info readsize chunk lastblock fuel st
      | none => .ok st
    else
      .ok st

def joinReply (env : ServerEnv) (info : FileInfo) (jvers clientid : Int) : Except Fatal Packet :=
  if jvers = 1 then
    .ok (mkPacket PKTTYPE_REPLY env.srcip (.join (toUInt32 info.blocks)))
  else if jvers = 2 then
    .ok (mkPacket PKTTYPE_REPLY env.srcip
      (.join2 (toUInt32 clientid) 0 MAXCHUNKSIZE MAXBLOCKSIZE (toUInt64 info.filesize)))
  else
    .error .assertion

def playWork (fuel : Nat) (env : ServerEnv) (info : FileInfo) (readsize : Int) (st : PlayState)
    (w : Work) : Except Fatal PlayState :=
  if w.chunk < 0 then do
    let p ← joinReply env info (-w.chunk) w.count
    .ok { st with sent := st.sent ++ [p] }
  else
    match w.block with
    | none => .error .assertion
    | some startblock =>
      let offset := toInt64 (MAXBLOCKSIZE * w.chunk * MAXCHUNKSIZE + MAXBLOCKSIZE * startblock)
      playLoop env info readsize w.chunk (toInt32 (startblock + w.count)) fuel
        { st with offset := offset, block := startblock }

/-- The packets that the server sends while it processes the work. -/
def playFrisbee (fuel : Nat) (env : ServerEnv) (info : FileInfo) (readsize : Int)
    (works : List Work) : Except Fatal (List Packet) := do
  let size := toUInt64 (toInt32 (readsize * MAXBLOCKSIZE))
  if env.malloc size then
    let st ← works.foldlM (playWork fuel env info readsize)
      { offset := 0, block := 0, databuf := ⟨size, env.garbage⟩, calls := 0, sent := [] }
    .ok st.sent
  else
    .error .alloc

/-! ## Section 3: What is to be sent -/

/-- Where in the file a block begins. -/
def blockOffset (chunk block : Int) : Nat := (MAXBLOCKSIZE * (MAXCHUNKSIZE * chunk + block)).toNat

/-- The packet with a block of the file, with zeros behind the end of the file. -/
def fileBlock (env : ServerEnv) (chunk block : Int) : Packet :=
  mkPacket PKTTYPE_REQUEST env.srcip (.block chunk block fun i =>
    if i < MAXBLOCKSIZE ∧ blockOffset chunk block + i < env.filesize then
      env.data (blockOffset chunk block + i)
    else 0)

/-- The packets for a piece of work: each block of the range once, in increasing order. -/
def workPackets (env : ServerEnv) (info : FileInfo) (w : Work) : List Packet :=
  if w.chunk < 0 then (joinReply env info (-w.chunk) w.count).toOption.toList
  else (List.range w.count.toNat).map fun (k : Nat) =>
    fileBlock env w.chunk (w.block.getD 0 + (k : Int))

/-- A range of blocks of a chunk of the file. -/
structure Work.InChunk (sizes : Sizes) (w : Work) (startblock : Int) : Prop where
  chunk_nonneg : 0 ≤ w.chunk
  chunk_lt : w.chunk < sizes.totalChunks
  start : w.block = some startblock
  start_nonneg : 0 ≤ startblock
  count_pos : 0 < w.count
  within : ∃ blocks, chunkSize sizes w.chunk = some blocks ∧ startblock + w.count ≤ blocks

/-- A reply to a JOIN of a version that there is. -/
def Work.IsJoin (w : Work) : Prop := w.chunk = -1 ∨ w.chunk = -2

/-- The system works: there is memory for the largest buffer, and reading does not fail forever. -/
structure ServerEnv.Works (env : ServerEnv) : Prop where
  malloc : ∀ n, n ≤ MAXCHUNKSIZE * MAXBLOCKSIZE → env.malloc n = true
  pread : ∀ calls, ∃ k, k < 100 ∧ (env.pread (calls + k)).isSome

/-! ## Section 4: Reading -/

theorem toInt32_natCast {n : Nat} (h : n < 2 ^ 31) : toInt32 (n : Int) = n :=
  toInt32_of_range (by omega) (by omega)

theorem toInt64_natCast {n : Nat} (h : n < 2 ^ 63) : toInt64 (n : Int) = n :=
  toInt64_of_range (by omega) (by omega)

theorem toUInt64_natCast {n : Nat} (h : n < 2 ^ 64) : toUInt64 (n : Int) = n := by
  unfold toUInt64 toUnsigned
  omega

theorem exists_tryRead {pread : Nat → Option Nat} {tries calls : Nat}
    (h : ∃ k, k < tries ∧ (pread (calls + k)).isSome) :
    ∃ n calls', tryRead pread tries calls = some (n, calls') := by
  induction tries generalizing calls with
  | zero =>
    obtain ⟨k, hk, -⟩ := h
    omega
  | succ tries ih =>
    unfold tryRead
    cases hread : pread calls with
    | some n => exact ⟨n, calls + 1, rfl⟩
    | none =>
      obtain ⟨k, hk, hsome⟩ := h
      -- the first call has failed, so it is a later one that succeeds
      cases k with
      | zero =>
        rw [Nat.add_zero, hread] at hsome
        cases hsome
      | succ k => exact ih ⟨k, by omega, by rwa [Nat.add_right_comm, Nat.add_assoc]⟩

/-- The bytes of the file from `offset` on are in the buffer from `pos` on. -/
def Holds (env : ServerEnv) (databuf : Buffer) (pos n offset : Nat) : Prop :=
  ∀ i, i < n → databuf.mem (pos + i) = env.data (offset + i)

theorem yields_write {b : Buffer} {pos n : Nat} {data : Nat → Byte} (h : pos + n ≤ b.size) :
    Yields False (b.write pos n data) fun b' => b'.size = b.size ∧
      (∀ i, i < n → b'.mem (pos + i) = data i) ∧ ∀ i, i < pos → b'.mem i = b.mem i := by
  unfold Buffer.write
  rw [if_pos h]
  refine ⟨rfl, ?_, ?_⟩
  · intro i hi
    dsimp only
    rw [if_pos (by omega), Nat.add_sub_cancel_left]
  · intro i hi
    dsimp only
    rw [if_neg (by omega)]

variable {env : ServerEnv}

/-- However the system divides the reads, the bytes that were asked for are read. -/
theorem yields_mypread (henv : env.Works) {nbytes offset pos count : Nat}
    {databuf : Buffer} {calls : Nat} (hfile : offset + nbytes ≤ env.filesize)
    (hsize : pos + nbytes ≤ databuf.size) :
    Yields False (mypread env nbytes offset pos count databuf calls) fun r =>
      r.1 = count + nbytes ∧ r.2.1.size = databuf.size ∧ Holds env r.2.1 pos nbytes offset ∧
        ∀ i, i < pos → r.2.1.mem i = databuf.mem i := by
  induction nbytes using Nat.strong_induction_on generalizing offset pos count databuf calls with
  | _ nbytes ih =>
    unfold mypread
    by_cases hzero : nbytes = 0
    · rw [if_pos hzero, hzero]
      exact ⟨rfl, rfl, fun i hi => by omega, fun i _ => rfl⟩
    · obtain ⟨n, calls', hread⟩ := exists_tryRead (henv.pread calls)
      rw [if_neg hzero, hread]
      dsimp only
      rw [if_neg (by omega)]
      -- what this call reads
      generalize hcc : min (n + 1) (min nbytes (env.filesize - offset)) = cc
      have hle : 0 < cc ∧ cc ≤ nbytes := by omega
      apply Yields.bind (yields_write (by omega))
      intro b hb
      obtain ⟨hbsize, hnew, hold⟩ := hb
      have hfile' : offset + cc + (nbytes - cc) ≤ env.filesize := by omega
      have hsize' : pos + cc + (nbytes - cc) ≤ b.size := by omega
      apply (ih (nbytes - cc) (by omega) hfile' hsize').imp
      intro r hr
      obtain ⟨hcount, hrsize, hholds, hkept⟩ := hr
      refine ⟨by omega, by omega, ?_, ?_⟩
      · intro i hi
        by_cases hfirst : i < cc
        · rw [hkept (pos + i) (by omega), hnew i hfirst]
        · have := hholds (i - cc) (by omega)
          rwa [show pos + cc + (i - cc) = pos + i by omega,
            show offset + cc + (i - cc) = offset + i by omega] at this
      · intro i hi
        rw [hkept i (by omega), hold i hi]

/-! ## Section 5: The windows -/

/-- The blocks of chunk `chunk` before block `last` are in the file. -/
structure InFile (env : ServerEnv) (chunk last : Nat) : Prop where
  block_lt : MAXCHUNKSIZE * chunk + last < 2 ^ 31
  last_le : last ≤ MAXCHUNKSIZE
  offset_lt : MAXBLOCKSIZE * (MAXCHUNKSIZE * chunk + last) < env.filesize + MAXBLOCKSIZE

theorem blockOffset_nat (chunk block : Nat) :
    blockOffset chunk block = MAXBLOCKSIZE * (MAXCHUNKSIZE * chunk + block) := by
  unfold blockOffset
  simp only [MAXBLOCKSIZE, MAXCHUNKSIZE]
  omega

/-- The numbers that are computed are in range. -/
theorem InFile.small {chunk block n : Nat} (h : InFile env chunk (block + n)) : block + n < 2 ^ 31 ∧
      MAXBLOCKSIZE * n ≤ MAXBLOCKSIZE * MAXCHUNKSIZE ∧ blockOffset chunk block < 2 ^ 62 := by
  have hlast := h.last_le
  have hlt := h.block_lt
  refine ⟨Nat.lt_of_le_of_lt hlast (by decide),
    Nat.mul_le_mul_left _ (Nat.le_trans (Nat.le_add_left n block) hlast), ?_⟩
  rw [blockOffset_nat]
  simp only [MAXBLOCKSIZE, MAXCHUNKSIZE] at hlt ⊢
  omega

theorem blockOffset_add (chunk block j : Nat) :
    blockOffset chunk ((block + j : Nat) : Int) = blockOffset chunk block + MAXBLOCKSIZE * j := by
  rw [blockOffset_nat, blockOffset_nat, ← Nat.add_assoc, Nat.mul_add]

/-- The bytes that a window of `n` blocks of `m` bytes has in the file. -/
def windowBytes (m n filesize offset : Nat) : Nat := min (m * n) (filesize - offset)

/-- Only the last block of the file is padded. What is kept of block `j` is what is in the file of it. -/
theorem exists_pad {m n filesize offset j : Nat} (hfile : offset + m * n < filesize + m)
    (hj : j < n) : ∃ pad count : Nat,
      (pad : Int) = (if ((m * n - windowBytes m n filesize offset : Nat) : Int) ≠ 0 ∧
          (j : Int) = n - 1 then ((m * n - windowBytes m n filesize offset : Nat) : Int) else 0) ∧
      (count : Int) = m - pad ∧ m * j + count ≤ m * n ∧
      ∀ i, i < count ↔ i < m ∧ offset + m * j + i < filesize := by
  unfold windowBytes
  have hnext : m * (j + 1) ≤ m * n := Nat.mul_le_mul_left m hj
  have hlater : j + 1 ≠ n → m * (j + 1 + 1) ≤ m * n := fun h =>
    Nat.mul_le_mul_left m (by omega)
  have hlast : j + 1 = n → m * (j + 1) = m * n := fun h => by rw [h]
  rw [Nat.mul_add_one] at hnext hlater hlast
  rw [Nat.mul_add_one] at hlater
  generalize m * n = A at *
  generalize m * j = B at *
  by_cases hend : A - min A (filesize - offset) ≠ 0 ∧ j + 1 = n
  · refine ⟨A - min A (filesize - offset), m - (A - min A (filesize - offset)), ?_, by omega,
      by omega, fun i => by omega⟩
    rw [if_pos ⟨by omega, by omega⟩]
  · refine ⟨0, m, ?_, by omega, by omega, fun i => by omega⟩
    rw [if_neg (by omega)]
    rfl

theorem blockPacket_eq {chunk block readcount : Nat}
    (hfile : InFile env chunk (block + readcount)) {databuf : Buffer} {j : Nat} (hholds : Holds env databuf 0
      (windowBytes MAXBLOCKSIZE readcount env.filesize (blockOffset chunk block))
      (blockOffset chunk block)) (hsize : MAXBLOCKSIZE * readcount ≤ databuf.size) (hj : j < readcount) :
    blockPacket env databuf chunk block readcount ((MAXBLOCKSIZE * readcount -
        windowBytes MAXBLOCKSIZE readcount env.filesize (blockOffset chunk block) : Nat) : Int) j =
      .ok (fileBlock env chunk ((block + j : Nat) : Int)) := by
  have hoffset := hfile.offset_lt
  rw [← blockOffset_nat, blockOffset_add] at hoffset
  have hblock : toInt32 ((block : Int) + j) = ((block + j : Nat) : Int) := by
    have hlast := hfile.last_le
    rw [← Int.natCast_add, toInt32_natCast]
    simp only [MAXCHUNKSIZE] at hlast
    omega
  obtain ⟨pad, count, hpad, hcount, hwithin, hkept⟩ := exists_pad hoffset hj
  have hread : MAXBLOCKSIZE * j + count ≤ databuf.size := Nat.le_trans hwithin hsize
  have hbuf : (fun i : Nat => if (i : Int) < (count : Int) then
        databuf.mem (MAXBLOCKSIZE * j + i) else 0) =
      fun i => if i < MAXBLOCKSIZE ∧ blockOffset chunk block + MAXBLOCKSIZE * j + i < env.filesize then
        env.data (blockOffset chunk block + MAXBLOCKSIZE * j + i) else 0 := by
    funext i
    by_cases hin : i < count
    · have hmem := hholds (MAXBLOCKSIZE * j + i) (by
        have := (hkept i).mp hin
        unfold windowBytes
        generalize MAXBLOCKSIZE * readcount = A at *
        generalize MAXBLOCKSIZE * j = B at *
        omega)
      rw [if_pos (Int.ofNat_lt.mpr hin), if_pos ((hkept i).mp hin), Nat.add_assoc, ← hmem, Nat.zero_add]
    · rw [if_neg (fun h => hin (Int.ofNat_lt.mp h)), if_neg (fun h => hin ((hkept i).mpr h))]
  unfold blockPacket Buffer.read fileBlock
  dsimp only
  rw [← hpad, ← hcount, hblock, Int.toNat_natCast, Nat.mul_comm j, if_pos hread, blockOffset_add]
  exact congrArg (fun buf : BlockBuf => (Except.ok (mkPacket PKTTYPE_REQUEST env.srcip
    (.block chunk ((block + j : Nat) : Int) buf)) : Except Fatal Packet)) hbuf

theorem bind_pure_ok {α β : Type} {a : α} {f : α → Except Fatal β} : ((.ok a : Except Fatal α) >>= f) = f a := rfl

theorem mapM_of_ok {α β : Type} {f : α → Except Fatal β} {g : α → β} {l : List α}
    (h : ∀ a ∈ l, f a = .ok (g a)) : l.mapM f = .ok (l.map g) := by
  induction l with
  | nil => rfl
  | cons a l ih =>
    rw [mapM_cons, h a mem_cons_self, ih fun a' ha' => h a' (mem_cons_of_mem _ ha')]
    rfl

/-- The packets with `n` blocks. -/
def fileBlocks (env : ServerEnv) (chunk block n : Nat) : List Packet :=
  (List.range n).map fun j => fileBlock env chunk ((block + j : Nat) : Int)

theorem fileBlocks_append (env : ServerEnv) (chunk block m n : Nat) :
    fileBlocks env chunk block m ++ fileBlocks env chunk (block + m) n = fileBlocks env chunk block (m + n) := by
  unfold fileBlocks
  rw [range_add, map_append, List.map_map]
  congr 1
  apply map_congr_left
  intro j _
  simp only [Function.comp_apply, Nat.add_assoc]

/-- The loop is about to send block `block`. -/
structure Positioned (env : ServerEnv) (readsize chunk block : Nat) (st : PlayState) : Prop where
  next : st.block = block
  offset : st.offset = blockOffset chunk block
  size : st.databuf.size = MAXBLOCKSIZE * readsize

structure Sent (env : ServerEnv) (chunk block n : Nat) (st st' : PlayState) : Prop where
  next : st'.block = ((block + n : Nat) : Int)
  offset : st'.offset = st.offset + windowBytes MAXBLOCKSIZE n env.filesize (blockOffset chunk block)
  size : st'.databuf.size = st.databuf.size
  sent : st'.sent = st.sent ++ fileBlocks env chunk block n

variable {st : PlayState}

theorem yields_sendWindow (henv : env.Works) {readsize chunk block n : Nat} (hfile : InFile env chunk (block + n))
    (hst : Positioned env readsize chunk block st) (hpos : 0 < n) (hn : n ≤ readsize) :
    Yields False (sendWindow env chunk n (windowBytes MAXBLOCKSIZE n env.filesize (blockOffset chunk block))
        ((MAXBLOCKSIZE * n - windowBytes MAXBLOCKSIZE n env.filesize (blockOffset chunk block) : Nat) : Int) st)
      (Sent env chunk block n st) := by
  have hoffset := hfile.offset_lt
  rw [← blockOffset_nat, blockOffset_add] at hoffset
  have hsize : MAXBLOCKSIZE * n ≤ st.databuf.size := by
    rw [hst.size]
    exact Nat.mul_le_mul_left _ hn
  have hpacket := fun (databuf : Buffer) hholds hle j hj =>
    @blockPacket_eq env chunk block n hfile databuf j hholds hle hj
  have hbytes : 0 < windowBytes MAXBLOCKSIZE n env.filesize (blockOffset chunk block) ∧
      windowBytes MAXBLOCKSIZE n env.filesize (blockOffset chunk block) ≤ MAXBLOCKSIZE * n ∧
      blockOffset chunk block + windowBytes MAXBLOCKSIZE n env.filesize (blockOffset chunk block) ≤
        env.filesize := by
    have hfirst : MAXBLOCKSIZE * 1 ≤ MAXBLOCKSIZE * n := Nat.mul_le_mul_left _ hpos
    unfold windowBytes
    generalize MAXBLOCKSIZE * n = A at *
    simp only [MAXBLOCKSIZE] at *
    omega
  have hsmall := hfile.small
  generalize hwindow : windowBytes MAXBLOCKSIZE n env.filesize (blockOffset chunk block) = W at *
  obtain ⟨hW, hle, hin⟩ := hbytes
  obtain ⟨hnext, hmax, hoff⟩ := hsmall
  have hW_lt : W < 2 ^ 31 := Nat.lt_of_le_of_lt (Nat.le_trans hle hmax) (by decide)
  have hoff_lt : blockOffset chunk block + W < 2 ^ 63 :=
    Nat.lt_of_lt_of_le (Nat.add_lt_add hoff hW_lt) (by decide)
  unfold sendWindow
  rw [hst.offset, if_neg (Int.not_lt.mpr (Int.natCast_nonneg _)),
    toUInt64_natCast (Nat.lt_trans hW_lt (by decide)), Int.toNat_natCast]
  apply Yields.bind (yields_mypread henv hin (by rw [Nat.zero_add]; exact Nat.le_trans hle hsize))
  intro r hr
  obtain ⟨count, databuf, calls⟩ := r
  have hcount : count = 0 + W := hr.1
  have hbufsize : databuf.size = st.databuf.size := hr.2.1
  have hholds : Holds env databuf 0 W (blockOffset chunk block) := hr.2.2.1
  dsimp only
  rw [hcount, Nat.zero_add, toInt32_natCast hW_lt, if_neg (Int.not_le.mpr (Int.natCast_pos.mpr hW)),
    if_neg (not_not_intro rfl), hst.next, Int.toNat_natCast,
    mapM_of_ok (g := fun j => fileBlock env chunk ((block + j : Nat) : Int))
      fun j hj => hpacket databuf hholds (by rw [hbufsize]; exact hsize) j (mem_range.mp hj)]
  rw [bind_pure_ok, ← Int.natCast_add, toInt64_natCast hoff_lt, ← Int.natCast_add, toInt32_natCast hnext]
  exact ⟨rfl, by rw [hst.offset, Int.natCast_add, hwindow], hbufsize, rfl⟩

/-- `FileInfo` is that of the file. -/
structure FileInfo.Describes (info : FileInfo) (env : ServerEnv) : Prop where
  filesize : info.filesize = env.filesize
  fits : env.filesize < 2 ^ 63
  isimage : info.isimage = true → MAXBLOCKSIZE ∣ env.filesize

variable {info : FileInfo}

theorem yields_playWindow (henv : env.Works)
    (hinfo : info.Describes env) {readsize chunk block last : Nat} (hfile : InFile env chunk last)
    (hst : Positioned env readsize chunk block st) (hpos : 0 < readsize) (hlt : block < last) :
    Yields False (playWindow env info readsize chunk last st) fun r =>
      ∃ st' n, r = some st' ∧ 0 < n ∧ block + n ≤ last ∧ Sent env chunk block n st st' ∧
        (block + n < last → st'.offset = blockOffset chunk ((block + n : Nat) : Int)) := by
  obtain ⟨n, hn, hn_pos, hn_le, hn_last⟩ : ∃ n : Nat, (n : Int) =
      (if (readsize : Int) < toInt32 ((last : Int) - block) then (readsize : Int)
        else toInt32 ((last : Int) - block)) ∧ 0 < n ∧ n ≤ readsize ∧ block + n ≤ last := by
    have hrest : toInt32 ((last : Int) - block) = ((last - block : Nat) : Int) := by
      have := hfile.last_le
      rw [← Int.natCast_sub (Nat.le_of_lt hlt), toInt32_natCast]
      simp only [MAXCHUNKSIZE] at this
      omega
    rw [hrest]
    refine ⟨min readsize (last - block), ?_, by omega, by omega, by omega⟩
    split_ifs <;> omega
  have hfile' : InFile env chunk (block + n) := by
    obtain ⟨hblock_lt, hlast, hoffset⟩ := hfile
    have hle : MAXCHUNKSIZE * chunk + (block + n) ≤ MAXCHUNKSIZE * chunk + last :=
      Nat.add_le_add_left hn_last _
    exact ⟨Nat.lt_of_le_of_lt hle hblock_lt, Nat.le_trans hn_last hlast,
      Nat.lt_of_le_of_lt (Nat.mul_le_mul_left _ hle) hoffset⟩
  have hsend := yields_sendWindow henv hfile' hst hn_pos hn_le
  obtain ⟨-, hmax, hoff⟩ := hfile'.small
  have hoffset := hfile'.offset_lt
  rw [← blockOffset_nat, blockOffset_add] at hoffset
  have hbytes : ((n : Int) * MAXBLOCKSIZE : Int) = ((MAXBLOCKSIZE * n : Nat) : Int) := by
    rw [Int.natCast_mul, Int.mul_comm]
  -- when blocks are left, the window is in the file
  have hnext : ∀ st', Sent env chunk block n st st' → block + n < last →
      st'.offset = blockOffset chunk ((block + n : Nat) : Int) := by
    intro st' hst' hmore
    have hin := hfile.offset_lt
    rw [← blockOffset_nat, show last = block + n + (last - (block + n)) by omega, blockOffset_add,
      blockOffset_add] at hin
    have hone : MAXBLOCKSIZE * 1 ≤ MAXBLOCKSIZE * (last - (block + n)) := Nat.mul_le_mul_left _ (by omega)
    rw [hst'.offset, hst.offset, blockOffset_add]
    unfold windowBytes
    generalize MAXBLOCKSIZE * n = A at *
    generalize MAXBLOCKSIZE * (last - (block + n)) = B at *
    omega
  have hoff_lt : blockOffset chunk block + MAXBLOCKSIZE * n < 2 ^ 63 :=
    Nat.lt_of_lt_of_le (Nat.add_lt_add_of_lt_of_le hoff hmax) (by decide)
  unfold playWindow
  rw [hst.next, ← hn]
  dsimp only
  rw [hbytes, toInt32_natCast (Nat.lt_of_le_of_lt hmax (by decide)), hst.offset, hinfo.filesize,
    ← Int.natCast_add, toInt64_natCast hoff_lt]
  by_cases heof : env.filesize < blockOffset chunk block + MAXBLOCKSIZE * n
  · -- the last block is short, so that the file is no image
    have himage : info.isimage = false := by
      cases himage : info.isimage with
      | false => rfl
      | true =>
        have hwhole : MAXBLOCKSIZE ∣ blockOffset chunk block + MAXBLOCKSIZE * n := by
          rw [blockOffset_nat, ← Nat.mul_add]
          exact Nat.dvd_mul_right _ _
        have hpast : MAXBLOCKSIZE ∣ blockOffset chunk block + MAXBLOCKSIZE * n - env.filesize :=
          Nat.dvd_sub hwhole (hinfo.isimage himage)
        have := Nat.le_of_dvd (Nat.sub_pos_of_lt heof) hpast
        omega
    have hone : MAXBLOCKSIZE * 1 ≤ MAXBLOCKSIZE * n := Nat.mul_le_mul_left _ hn_pos
    have hdiff : ((blockOffset chunk block + MAXBLOCKSIZE * n : Nat) : Int) - env.filesize = ((MAXBLOCKSIZE * n -
          windowBytes MAXBLOCKSIZE n env.filesize (blockOffset chunk block) : Nat) : Int) := by
      unfold windowBytes
      generalize MAXBLOCKSIZE * n = A at *
      omega
    have hrest : ((MAXBLOCKSIZE * n : Nat) : Int) - ((MAXBLOCKSIZE * n -
          windowBytes MAXBLOCKSIZE n env.filesize (blockOffset chunk block) : Nat) : Int) =
        (windowBytes MAXBLOCKSIZE n env.filesize (blockOffset chunk block) : Nat) := by
      unfold windowBytes
      generalize MAXBLOCKSIZE * n = A at *
      omega
    have hshort : MAXBLOCKSIZE * n -
        windowBytes MAXBLOCKSIZE n env.filesize (blockOffset chunk block) < MAXBLOCKSIZE := by
      unfold windowBytes
      generalize MAXBLOCKSIZE * n = A at *
      omega
    have hwindow : windowBytes MAXBLOCKSIZE n env.filesize (blockOffset chunk block) ≤
        MAXBLOCKSIZE * n := Nat.min_le_left _ _
    rw [if_pos (Int.ofNat_lt.mpr heof), hdiff, toInt64_natCast (Nat.lt_trans hshort (by decide)),
      hrest, toInt32_natCast (Nat.lt_trans hshort (by decide)),
      toInt32_natCast (Nat.lt_of_le_of_lt (Nat.le_trans hwindow hmax) (by decide)),
      if_pos ⟨himage, Int.ofNat_lt.mpr hshort⟩]
    apply Yields.bind hsend
    intro st' hst'
    exact ⟨st', n, rfl, hn_pos, hn_last, hst', hnext st' hst'⟩
  · have hwindow : windowBytes MAXBLOCKSIZE n env.filesize (blockOffset chunk block) = MAXBLOCKSIZE * n := by
      unfold windowBytes
      generalize MAXBLOCKSIZE * n = A at *
      omega
    rw [hwindow, Nat.sub_self] at hsend
    rw [if_neg (fun h => heof (Int.ofNat_lt.mp h))]
    apply Yields.bind hsend
    intro st' hst'
    exact ⟨st', n, rfl, hn_pos, hn_last, hst', hnext st' hst'⟩

/-! ## Section 6: Runs -/

theorem yields_playLoop (henv : env.Works)
    (hinfo : info.Describes env) {readsize chunk last : Nat} (hfile : InFile env chunk last)
    (hpos : 0 < readsize) {fuel block : Nat} (st : PlayState) (hfuel : last - block < fuel)
    (hle : block ≤ last) (hnext : st.block = block) (hoffset : block < last → st.offset = blockOffset chunk block)
    (hsize : st.databuf.size = MAXBLOCKSIZE * readsize) :
    Yields False (playLoop env info readsize chunk last fuel st) fun st' =>
      st'.sent = st.sent ++ fileBlocks env chunk block (last - block) ∧
        st'.databuf.size = MAXBLOCKSIZE * readsize := by
  induction fuel generalizing block st with
  | zero => omega
  | succ fuel ih =>
    unfold playLoop
    by_cases hlt : block < last
    · rw [hnext, if_pos (Int.ofNat_lt.mpr hlt)]
      apply Yields.bind (yields_playWindow henv hinfo hfile ⟨hnext, hoffset hlt, hsize⟩ hpos hlt)
      intro r hr
      obtain ⟨st', n, rfl, hn_pos, hn_last, hsent, hoffset'⟩ := hr
      have hfuel' : last - (block + n) < fuel := by omega
      apply (ih st' hfuel' hn_last hsent.next hoffset' (hsent.size.trans hsize)).imp
      intro st'' hst''
      obtain ⟨hsent'', hsize''⟩ := hst''
      refine ⟨?_, hsize''⟩
      -- the blocks of this window, and those of the later ones
      rw [hsent'', hsent.sent, append_assoc, fileBlocks_append,
        show n + (last - (block + n)) = last - block by omega]
    · rw [hnext, if_neg (fun h => hlt (Int.ofNat_lt.mp h)), Nat.sub_eq_zero_of_le (by omega)]
      exact ⟨(append_nil _).symm, hsize⟩

theorem initFile_some (h : initFile env.filesize = some info) :
    initSizes MAXCHUNKSIZE MAXBLOCKSIZE env.filesize = some info.sizes ∧ info.filesize = env.filesize ∧
      (0 < info.sizes.totalChunks → info.isimage = true → MAXBLOCKSIZE ∣ env.filesize) := by
  unfold initFile at h
  simp only [bind_eq_bind, bind_eq_some_iff, Option.some.injEq] at h
  obtain ⟨sizes, hsizes, csize, hcsize, bsize, hbsize, rfl⟩ := h
  refine ⟨hsizes, rfl, ?_⟩
  intro hpos himage
  dsimp only at hpos himage
  obtain ⟨hwf, -⟩ := wellFormed_initSizes hsizes
  -- a negative chunk or block asks for the full size
  have hc : csize = 1024 := by
    unfold chunkSize at hcsize
    rw [if_pos (by omega), if_pos (Or.inl (by omega)), hwf.chunkSize] at hcsize
    exact (some.inj hcsize).symm
  have hb : bsize = 1024 := by
    unfold blockSize at hbsize
    rw [hwf.blockSize, if_pos ⟨by omega, by omega⟩, if_pos (Or.inl (by omega))] at hbsize
    exact (some.inj hbsize).symm
  have hmod := of_decide_eq_true himage
  rw [hc, hb, toInt32_of_range (by omega) (by omega), Int.tmod_eq_emod_of_nonneg (by omega)] at hmod
  simp only [MAXBLOCKSIZE]
  omega

theorem totalBlocks_le {filesize : Nat} (hfits : filesize < 2 ^ 63) {sizes : Sizes}
    (h : initSizes MAXCHUNKSIZE MAXBLOCKSIZE filesize = some sizes) (hpos : 0 < sizes.totalBlocks) :
    sizes.totalBlocks < 2 ^ 31 ∧ 1024 * (sizes.totalBlocks - 1) < filesize := by
  obtain ⟨-, -, hblocks, -⟩ := wellFormed_initSizes h
  have hrange := toInt32_range ((toInt64 ((filesize : Int) + 1024 - 1)).tdiv 1024)
  rw [← hblocks] at hrange
  refine ⟨hrange.2, ?_⟩
  by_cases hsmall : (filesize : Int) + 1023 < 1024 * 2 ^ 31
  · rw [toInt64_of_range (by omega) (by omega), Int.tdiv_eq_ediv_of_nonneg (by omega),
      toInt32_of_range (by omega) (by omega)] at hblocks
    omega
  · -- the number has been cut to an `int`
    omega

theorem Work.InChunk.inFile {w : Work} {startblock : Int}
    (hinfo : initFile env.filesize = some info) (hfits : env.filesize < 2 ^ 63)
    (h : w.InChunk info.sizes startblock) : InFile env w.chunk.toNat (startblock + w.count).toNat := by
  obtain ⟨hsizes, -⟩ := initFile_some hinfo
  obtain ⟨hwf, -⟩ := wellFormed_initSizes hsizes
  obtain ⟨blocks, hblocks, hwithin⟩ := h.within
  obtain ⟨hchunk, hlt, -, hstart, hcount, -⟩ := h
  have hpos : 0 < info.sizes.totalChunks := by omega
  have htotal := hwf.totalBlocks hpos
  have hlast := hwf.lastBlocks_range hpos
  have hdef : info.sizes.lastBlocks = info.sizes.totalBlocks - 1024 * (info.sizes.totalChunks - 1) := rfl
  obtain ⟨hint, hbytes⟩ := totalBlocks_le hfits hsizes (by omega)
  rw [hwf.chunkSize_eq hchunk hlt, Option.some.injEq] at hblocks
  clear hsizes hwf hinfo
  have hblock : 1024 * w.chunk + (startblock + w.count) ≤ info.sizes.totalBlocks ∧
      startblock + w.count ≤ 1024 := by
    split_ifs at hblocks <;> omega
  constructor
  · simp only [MAXCHUNKSIZE]
    omega
  · simp only [MAXCHUNKSIZE]
    omega
  · simp only [MAXCHUNKSIZE, MAXBLOCKSIZE]
    omega

/-- A range has at most the blocks of a chunk, and its packets are those of the blocks. -/
theorem yields_playWork (henv : env.Works) (hfits : env.filesize < 2 ^ 63)
    (hinfo : initFile env.filesize = some info) {readsize : Nat}
    (hpos : 0 < readsize) (hsize : st.databuf.size = MAXBLOCKSIZE * readsize)
    {w : Work} (hw : (∃ startblock, w.InChunk info.sizes startblock) ∨ w.IsJoin) :
    Yields False (playWork (MAXCHUNKSIZE + 1) env info readsize st w) fun st' =>
      st'.sent = st.sent ++ workPackets env info w ∧ st'.databuf.size = MAXBLOCKSIZE * readsize := by
  unfold playWork workPackets
  rcases hw with ⟨startblock, hrange⟩ | hjoin
  · have hfile := hrange.inFile hinfo hfits
    obtain ⟨-, hsame, himage⟩ := initFile_some hinfo
    have hdescribes : info.Describes env :=
      ⟨hsame, hfits, himage (Int.lt_of_le_of_lt hrange.chunk_nonneg hrange.chunk_lt)⟩
    obtain ⟨chunk, hchunk⟩ := Int.eq_ofNat_of_zero_le hrange.chunk_nonneg
    obtain ⟨block, hblock⟩ := Int.eq_ofNat_of_zero_le hrange.start_nonneg
    obtain ⟨n, hn⟩ := Int.eq_ofNat_of_zero_le (Int.le_of_lt hrange.count_pos)
    rw [hchunk, hblock, hn, ← Int.natCast_add, Int.toNat_natCast, Int.toNat_natCast] at hfile
    rw [hrange.start, hchunk, hblock, hn, if_neg (Int.not_lt.mpr (Int.natCast_nonneg _)),
      if_neg (Int.not_lt.mpr (Int.natCast_nonneg _))]
    have hnext := hfile.small.1
    have hoff := hfile.small.2.2
    have hoffset : (MAXBLOCKSIZE * (chunk : Int) * MAXCHUNKSIZE + MAXBLOCKSIZE * (block : Int)) =
        ((blockOffset chunk block : Nat) : Int) := by
      rw [blockOffset_nat]
      push_cast
      ring
    dsimp only
    rw [hoffset, toInt64_natCast (Nat.lt_trans hoff (by decide)), ← Int.natCast_add, toInt32_natCast hnext]
    have hcount : block + n - block < MAXCHUNKSIZE + 1 := by
      have := hfile.last_le
      omega
    apply (yields_playLoop henv hdescribes hfile hpos
      { st with offset := blockOffset chunk block, block := block } hcount
      (Nat.le_add_right block n) rfl (fun _ => rfl) hsize).imp
    intro st' hst'
    rw [Nat.add_sub_cancel_left] at hst'
    exact hst'
  · have hreply : ∃ p, joinReply env info (-w.chunk) w.count = .ok p := by
      unfold joinReply
      rcases hjoin with hjoin | hjoin
      · exact ⟨_, if_pos (by omega)⟩
      · rw [if_neg (by omega), if_pos (by omega)]
        exact ⟨_, rfl⟩
    obtain ⟨p, hp⟩ := hreply
    have hneg : w.chunk < 0 := by
      rcases hjoin with hjoin | hjoin <;> omega
    rw [if_pos hneg, if_pos hneg, hp]
    exact ⟨rfl, hsize⟩

theorem yields_playWorks (henv : env.Works) (hfits : env.filesize < 2 ^ 63)
    (hinfo : initFile env.filesize = some info) {readsize : Nat} (hpos : 0 < readsize) {works : List Work}
    (hworks : ∀ w ∈ works, (∃ startblock, w.InChunk info.sizes startblock) ∨ w.IsJoin)
    (hsize : st.databuf.size = MAXBLOCKSIZE * readsize) :
    Yields False (works.foldlM (playWork (MAXCHUNKSIZE + 1) env info readsize) st) fun st' =>
      st'.sent = st.sent ++ works.flatMap (workPackets env info) := by
  induction works generalizing st with
  | nil => exact (append_nil _).symm
  | cons w works ih =>
    rw [foldlM_cons]
    apply Yields.bind (yields_playWork henv hfits hinfo hpos hsize (hworks w mem_cons_self))
    intro st' hst'
    apply (ih (fun w' hw' => hworks w' (mem_cons_of_mem _ hw')) hst'.2).imp
    intro st'' hst''
    rw [hst'', hst'.1, flatMap_cons, append_assoc]

/-- With a negative read size no block is sent, whatever the system does. -/
theorem yields_sendWindow_neg {chunk readcount readbytes resid : Int} (hneg : readcount < 0) :
    Yields True (sendWindow env chunk readcount readbytes resid st) fun st' => st'.sent = st.sent := by
  unfold sendWindow
  split
  · exact True.intro
  · apply Yields.bind (yields_of_ok True.intro fun _ _ => True.intro) (P := fun _ => True)
    intro r _
    split
    rename_i count databuf calls
    dsimp only
    generalize toInt32 (count : Int) = cc
    split
    · exact True.intro
    · split
      · exact True.intro
      · rw [Int.toNat_of_nonpos (Int.le_of_lt hneg), range_zero, mapM_nil]
        exact append_nil _

theorem yields_playLoop_neg {readsize chunk lastblock : Int} (hneg : readsize < 0) (fuel : Nat) (st : PlayState) :
    Yields True (playLoop env info readsize chunk lastblock fuel st) fun st' => st'.sent = st.sent := by
  induction fuel generalizing st with
  | zero => exact True.intro
  | succ fuel ih =>
    unfold playLoop
    split
    · have hwindow : Yields True (playWindow env info readsize chunk lastblock st) fun r =>
          ∀ st' ∈ r, st'.sent = st.sent := by
        have hcount : (if readsize < toInt32 (lastblock - st.block) then readsize
            else toInt32 (lastblock - st.block)) < 0 := by
          split <;> omega
        unfold playWindow
        dsimp only
        generalize (if readsize < toInt32 (lastblock - st.block) then readsize
          else toInt32 (lastblock - st.block)) = readcount at hcount ⊢
        split
        · split
          · apply Yields.bind (yields_sendWindow_neg hcount)
            intro st' hst' st'' hst''
            obtain rfl := some.inj hst''
            exact hst'
          · exact fun _ h => nomatch h
        · apply Yields.bind (yields_sendWindow_neg hcount)
          intro st' hst' st'' hst''
          obtain rfl := some.inj hst''
          exact hst'
      apply Yields.bind hwindow
      intro r hr
      cases r with
      | none => rfl
      | some st' =>
        apply (ih st').imp
        intro st'' hst''
        rw [hst'', hr st' rfl]
    · rfl

/-- With a negative read size only replies to JOINs are sent. -/
theorem yields_playWorks_neg {readsize : Int} (hneg : readsize < 0) (fuel : Nat) {works : List Work}
    (hst : ∀ p ∈ st.sent, p.type = PKTTYPE_REPLY) :
    Yields True (works.foldlM (playWork fuel env info readsize) st) fun st' =>
      ∀ p ∈ st'.sent, p.type = PKTTYPE_REPLY := by
  induction works generalizing st with
  | nil => exact hst
  | cons w works ih =>
    rw [foldlM_cons]
    have hwork : Yields True (playWork fuel env info readsize st w) fun st' =>
        ∀ p ∈ st'.sent, p.type = PKTTYPE_REPLY := by
      unfold playWork
      split
      · have hreply : Yields True (joinReply env info (-w.chunk) w.count) fun p =>
            p.type = PKTTYPE_REPLY := by
          unfold joinReply
          split
          · rfl
          · split
            · rfl
            · exact True.intro
        apply Yields.bind hreply
        intro p hp p' hp'
        rcases mem_append.mp hp' with hp' | hp'
        · exact hst p' hp'
        · rw [mem_singleton.mp hp']
          exact hp
      · split
        · exact True.intro
        · apply (yields_playLoop_neg hneg fuel _).imp
          intro st' hst'
          rw [hst']
          exact hst
    exact Yields.bind hwork fun st' hst' => ih hst'

/-- The server sends what it is asked for, in the order of the work: of each range every block
    once, in increasing order, and nothing else but the replies to JOINs. -/
def SendsWork (env : ServerEnv) (info : FileInfo) (readsize : Int) (works : List Work) : Prop :=
  ∃ fuel, playFrisbee fuel env info readsize works = .ok (works.flatMap (workPackets env info))

/-- The first block of a range is missing if the read size is negative. -/
theorem not_sendsWork_of_neg {readsize : Int}
    (hneg : readsize < 0) {works : List Work} {w : Work} (hw : w ∈ works) {startblock : Int}
    (hin : w.InChunk info.sizes startblock) : ¬SendsWork env info readsize works := by
  intro hsends
  obtain ⟨fuel, hrun⟩ := hsends
  have hreplies : Yields True (playFrisbee fuel env info readsize works)
      fun packets => ∀ p ∈ packets, p.type = PKTTYPE_REPLY := by
    unfold playFrisbee
    dsimp only
    split
    · apply Yields.bind (yields_playWorks_neg hneg fuel fun p hp => absurd hp not_mem_nil)
      exact fun st hst => hst
    · exact True.intro
  have hblock : fileBlock env w.chunk (w.block.getD 0 + (0 : Nat)) ∈ works.flatMap (workPackets env info) := by
    apply mem_flatMap.mpr
    refine ⟨w, hw, ?_⟩
    have hcount := hin.count_pos
    unfold workPackets
    rw [if_neg (Int.not_lt.mpr hin.chunk_nonneg)]
    exact mem_map.mpr ⟨0, mem_range.mpr (by omega), rfl⟩
  have htype : PKTTYPE_REQUEST = PKTTYPE_REPLY := hreplies.of_ok hrun _ hblock
  exact absurd htype (by decide)

/-- A negative argument is the read size. -/
theorem readsizeOption_of_neg {a : Int} (h : a < 0) : readsizeOption (some a) = a := by
  unfold readsizeOption
  simp only [MAXCHUNKSIZE]
  rw [if_neg (by omega)]

/-- Otherwise the read size is at least one block, and at most a chunk. -/
theorem readsizeOption_of_nonneg {arg : Option Int} (h : ∀ a ∈ arg, 0 ≤ a) :
    ∃ readsize : Nat, readsizeOption arg = readsize ∧ 0 < readsize ∧ readsize ≤ MAXCHUNKSIZE := by
  cases arg with
  | none => exact ⟨32, rfl, by decide, by decide⟩
  | some a =>
    have ha := h a rfl
    unfold readsizeOption
    simp only [MAXCHUNKSIZE]
    split
    · exact ⟨1024, rfl, by decide, le_rfl⟩
    · exact ⟨a.toNat, by omega, by omega, by omega⟩

/-- **The send loop.** For every file, and work of which some is a range of blocks of a chunk, the server
    sends what it is asked for exactly if the argument of the `-R` option is not negative. -/
theorem playFrisbee_sendsWork_iff (env : ServerEnv) (henv : env.Works)
    (hfits : env.filesize < 2 ^ 63) {info : FileInfo} (hinfo : initFile env.filesize = some info)
    (arg : Option Int) (works : List Work)
    (hworks : ∀ w ∈ works, (∃ startblock, w.InChunk info.sizes startblock) ∨ w.IsJoin)
    (hrange : ∃ w ∈ works, ∃ startblock, w.InChunk info.sizes startblock) :
    SendsWork env info (readsizeOption arg) works ↔ ∀ a ∈ arg, 0 ≤ a := by
  constructor
  · intro hsends a ha
    obtain rfl := mem_def.mp ha
    obtain ⟨w, hw, startblock, hin⟩ := hrange
    by_contra hneg
    rw [readsizeOption_of_neg (Int.not_le.mp hneg)] at hsends
    exact not_sendsWork_of_neg (Int.not_le.mp hneg) hw hin hsends
  · intro harg
    obtain ⟨readsize, hreadsize, hpos, hle⟩ := readsizeOption_of_nonneg harg
    have hmax : MAXBLOCKSIZE * readsize ≤ MAXCHUNKSIZE * MAXBLOCKSIZE :=
      Nat.le_trans (Nat.mul_le_mul_left _ hle) (Nat.le_of_eq (Nat.mul_comm _ _))
    have hsize : toUInt64 (toInt32 ((readsize : Int) * MAXBLOCKSIZE)) = MAXBLOCKSIZE * readsize := by
      rw [Int.mul_comm, ← Int.natCast_mul, toInt32_natCast (Nat.lt_of_le_of_lt hmax (by decide)),
        toUInt64_natCast (Nat.lt_of_le_of_lt hmax (by decide))]
    have hrun : Yields False (playFrisbee (MAXCHUNKSIZE + 1) env info (readsizeOption arg) works) fun packets =>
          packets = works.flatMap (workPackets env info) := by
      unfold playFrisbee
      dsimp only
      rw [hreadsize, hsize, if_pos (henv.malloc _ hmax)]
      apply Yields.bind (yields_playWorks henv hfits hinfo hpos hworks rfl)
      intro st hst
      exact hst
    obtain ⟨packets, hok, rfl⟩ := hrun.returns not_false
    exact ⟨MAXCHUNKSIZE + 1, hok⟩

/-- A server of a file of a block and a half, in which a system call reads at most 1000 bytes and
    every other one fails. -/
def shortServer : ServerEnv where
  data := fun i => BitVec.ofNat 8 i
  filesize := 1536
  pread := fun calls => if calls % 2 = 0 then none else some 999
  malloc := fun n => n ≤ MAXCHUNKSIZE * MAXBLOCKSIZE
  garbage := fun _ => 0
  srcip := 0

/-- What it knows about the file. -/
def shortInfo : FileInfo where
  sizes := ⟨1024, 1024, 1, 2, 2, 512⟩
  filesize := 1536
  blocks := 2
  isimage := false

theorem initFile_short : initFile shortServer.filesize = some shortInfo := by
  decide

theorem shortServer_works : shortServer.Works := by
  constructor
  · intro n hn
    exact decide_eq_true hn
  · intro calls
    -- of two calls one is odd
    refine ⟨(calls + 1) % 2, by omega, ?_⟩
    unfold shortServer
    dsimp only
    rw [if_neg (by omega)]
    rfl

/-- The request for both blocks. -/
theorem shortRange_inChunk : Work.InChunk shortInfo.sizes ⟨0, some 0, 2⟩ 0 := by
  constructor
  · decide
  · decide
  · rfl
  · decide
  · decide
  · exact ⟨2, by decide, by decide⟩

theorem playFrisbee_sendsWork_short :
    SendsWork shortServer shortInfo (readsizeOption (some 1)) [⟨-2, none, 5⟩, ⟨0, some 0, 2⟩] ↔
      ∀ a ∈ some (1 : Int), 0 ≤ a := by
  apply playFrisbee_sendsWork_iff shortServer shortServer_works (by decide) initFile_short
  · intro w hw
    rcases mem_cons.mp hw with rfl | hw
    · exact Or.inr (Or.inr rfl)
    · rw [mem_singleton.mp hw]
      exact Or.inl ⟨0, shortRange_inChunk⟩
  · exact ⟨⟨0, some 0, 2⟩, by simp, 0, shortRange_inChunk⟩

/-- With `-R -4194303` the size of the buffer overflows to one block, and nothing is sent. -/
theorem negativeReadsize_silent : ¬∀ (env : ServerEnv) (info : FileInfo) (arg : Option Int)
    (works : List Work), env.Works → env.filesize < 2 ^ 63 →
    initFile env.filesize = some info →
    (∀ w ∈ works, ∃ startblock, w.InChunk info.sizes startblock) →
    SendsWork env info (readsizeOption arg) works := by
  intro hall
  have hsends := hall shortServer shortInfo (some (-4194303)) [⟨0, some 0, 2⟩] shortServer_works
    (by decide) initFile_short (by
      intro w hw
      rw [mem_singleton.mp hw]
      exact ⟨0, shortRange_inChunk⟩)
  rw [readsizeOption_of_neg (by decide)] at hsends
  exact not_sendsWork_of_neg (by decide) (mem_singleton.mpr rfl) shortRange_inChunk hsends

end Emulab.Frisbee
