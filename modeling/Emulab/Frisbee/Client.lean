import Emulab.Frisbee.BlockMapQuery
import Emulab.Frisbee.Packet
import Emulab.Frisbee.Sizes

/-! # The frisbee client

  Two threads share the chunk cache. The receiver takes in packets and makes
  requests; the writer takes completed chunks out of the cache. The receiver
  is modelled as a thread whose environment is the writer and the clock. It
  yields wherever it reads the state of a chunk buffer, which the writer may
  have changed, or the time.
-/

namespace Emulab.Frisbee

open MachineInt Thread

/-! ## Section 1: State -/

inductive BufState where
  | empty
  /-- Some blocks of the chunk have been received. -/
  | filling
  /-- The chunk is complete, and the writer may take it. -/
  | full
  /-- Like `filling`, but the buffer may be given to another chunk. -/
  | dubious
deriving DecidableEq

/-- The chunk in the buffer is neither absent nor complete. -/
def BufState.inProgress : BufState → Bool
  | .filling | .dubious => true
  | .empty | .full => false

structure ChunkBuffer where
  /-- Which chunk in progress. -/
  thischunk : Int
  state : BufState
  blockcount : Int
  blockmap : BlockMap
  blocks : Nat → BlockBuf

structure Chunk where
  /-- When the chunk was last requested, in 61 bits. -/
  lastreq : Nat
  ours : Bool
  /-- Chunk is either filling or been processed. -/
  seen : Bool
  done : Bool

inductive Writer where
  /-- At the test of the loop. -/
  | head
  /-- About to look at buffer `i`. -/
  | scan (i : Nat)
  | write (i : Nat)
  | finished

/-- The parameters of a client that has joined. -/
structure ClientConfig where
  sizes : Sizes
  maxchunkbufs : Nat
  /-- How many chunks to request ahead. -/
  maxreadahead : Int
  /-- How many chunks to fill at a time. -/
  maxinprogress : Int
  /-- Delay before a request is repeated; zero for none. -/
  redodelay : Int
  /-- Ticks before a request is made. -/
  idletimer : Int
  /-- Seconds before the server is taken to be dead; zero for never. -/
  servertimo : Int
  /-- Where blocks must come from; zero for anywhere. -/
  serverip : Nat
  clientip : Nat
  chunkRequestList : List Int

/-- What the threads share, and the variables of each. -/
structure Client where
  chunks : Int → Chunk
  chunkBuffer : Nat → ChunkBuffer
  /-- The last chunk that there was no buffer for, or -1. -/
  lastnoroomchunk : Int
  /-- How many blocks were dropped then. -/
  lastnoroomblocks : Int
  inprogress : Int
  /-- Ticks left before the next request. -/
  idleCounter : Int
  /-- Slows down requests to a server that does not respond. -/
  backOff : Int
  /-- Ticks left before the server is taken to be dead. -/
  stCounter : Int
  childError : Bool
  now : Nat
  writer : Writer
  /-- Chunks that are not written yet. -/
  chunkcount : Int
  sent : List Packet
  /-- Each buffer as it was when it was handed to the writer. -/
  handed : List ChunkBuffer

/-- A step of the environment of the receiver. -/
inductive EnvStep where
  | tick (usec : Nat)
  | writer

namespace Client

def setBuffer (s : Client) (i : Nat) (b : ChunkBuffer) : Client :=
  { s with chunkBuffer := fun j => if j = i then b else s.chunkBuffer j }

def setChunk (s : Client) (chunk : Int) (c : Chunk) : Client :=
  { s with chunks := fun d => if d = chunk then c else s.chunks d }

def setState (s : Client) (i : Nat) (st : BufState) : Client :=
  s.setBuffer i { s.chunkBuffer i with state := st }

def send (s : Client) (p : Packet) : Client := { s with sent := s.sent ++ [p] }

end Client

def writerStep (cfg : ClientConfig) (s : Client) : Client :=
  match s.writer with
  | .head => { s with writer := if s.chunkcount = 0 then .finished else .scan 0 }
  | .scan i =>
    if i < cfg.maxchunkbufs then
      { s with writer := if (s.chunkBuffer i).state = .full then .write i else .scan (i + 1) }
    else
      { s with writer := .head }
  | .write i =>
    -- the chunk has been written: free the slot up for another chunk
    { s.setState i .empty with chunkcount := s.chunkcount - 1, writer := .head }
  | .finished => s

def envStep (cfg : ClientConfig) (s : Client) : EnvStep → Client
  | .tick usec => { s with now := s.now + usec }
  | .writer => writerStep cfg s

abbrev Receiver (α : Type) := Thread Client EnvStep α

/-! ## Section 2: Requests -/

section
variable (cfg : ClientConfig)

/-- The time as `gettimeofday` gives it. -/
def gettimeofday : Receiver Nat := do
  yield (envStep cfg)
  read fun s => s.now % 2 ^ 64

def findInProgress (chunk : Int) : List Nat → Receiver (Option Nat)
  | [] => pure none
  | i :: rest => do
    yield (envStep cfg)
    let b ← read fun s => s.chunkBuffer i
    if b.thischunk = chunk ∧ b.state.inProgress then pure (some i)
    else findInProgress chunk rest

def stampChunk (chunk : Int) : Receiver Bool := do
  let tv ← gettimeofday cfg
  update fun s => s.setChunk chunk { s.chunks chunk with lastreq := tv % 2 ^ 61 }
  pure true

/-- Whether a request is for the complete chunk. -/
def requestsWhole (chunk block count : Int) : Receiver Bool :=
  if block = 0 then do
    let csize ← need (chunkSize cfg.sizes chunk)
    pure (decide (count = csize))
  else
    pure false

/-- Note that someone has made a request from the server right now; `gotblock`
    if this is inferred from a block. Whether the chunk was stamped. -/
def requestStamp (chunk block count : Int) (gotblock : Bool) : Receiver Bool :=
  -- if not doing delays, don't bother with the stamp
  if cfg.redodelay = 0 then pure false
  else do
    let c ← read fun s => s.chunks chunk
    -- chunk has been fully processed, no need to stamp
    if c.done then pure false
    else do
      let whole ← requestsWhole cfg chunk block count
      if whole then stampChunk cfg chunk
      else if !c.seen then stampChunk cfg chunk
      else do
        let found ← findInProgress cfg chunk (List.range cfg.maxchunkbufs)
        match found with
        | none => pure false
        | some i => do
          let b ← read fun s => s.chunkBuffer i
          let got ← need (blockMapIsAlloc b.blockmap block count)
          if (got : Int) = count then pure false
          else if !gotblock ∧ b.state = .dubious then do
            -- any block that was formerly of dubious value now has real value
            update fun s => s.setState i .filling
            stampChunk cfg chunk
          else stampChunk cfg chunk

/-- We have not made (or seen) a request for a chunk "for awhile". -/
def requestRedoTime (c : Chunk) (curtime : Nat) : Bool :=
  c.lastreq = 0 || cfg.redodelay = 0 || cfg.redodelay ≤ toInt32 (subU64 curtime c.lastreq)

/-- Note that the last request for a chunk was ours. -/
def markOurs (chunk : Int) : Receiver Unit :=
  update fun s => s.setChunk chunk { s.chunks chunk with ours := true }

/-- Request the blocks of a chunk that are missing from `map`. -/
def requestMissing (chunk : Int) (map : BlockMap) (count : Int) : Receiver Unit := do
  let csize ← need (chunkSize cfg.sizes chunk)
  let c ← read fun s => s.chunks chunk
  let missing ← need (missingBlocks map csize)
  update fun s => s.send
    (mkPacket PKTTYPE_REQUEST cfg.clientip (.prequest chunk (if c.ours then 1 else 0) missing))
  let n ← need (blockMapIsAlloc missing 0 MAXCHUNKSIZE)
  require (decide (count = n))
  let _ ← requestStamp cfg chunk 0 csize false
  markOurs chunk

/-- Everything but the blocks of a range. -/
def allBut (whole : Bool) (block count : Int) : Option BlockMap :=
  if whole then some ∅ else blockMapClear (BitMap.fill (BitVec.allOnes 8)) block count

def requestRange (chunk block count : Int) : Receiver Unit := do
  let c ← read fun s => s.chunks chunk
  -- a re-request is made in a way that tells the server so
  if c.ours then do
    let whole ← requestsWhole cfg chunk block count
    let tmap ← need (allBut whole block count)
    requestMissing cfg chunk tmap count
  else do
    update fun s => s.send (mkPacket PKTTYPE_REQUEST cfg.clientip (.request chunk block count))
    let _ ← requestStamp cfg chunk block count false
    markOurs chunk

/-- Request all the missing blocks of an unfinished chunk. If it was of dubious value, it is no longer. -/
def requestUnfinished (timedout : Bool) (stamp : Nat) (i : Nat) (b : ChunkBuffer) : Receiver Unit := do
  let c ← read fun s => s.chunks b.thischunk
  if timedout ∨ requestRedoTime cfg c stamp then do
    requestMissing cfg b.thischunk b.blockmap b.blockcount
    yield (envStep cfg)
    let b ← read fun s => s.chunkBuffer i
    if b.state = .dubious then update fun s => s.setState i .filling else pure ()
  else
    pure ()

/-- Look for unfinished chunks; the numbers of empty buffers and of unfinished ones. -/
def requestUnfinishedLoop (timedout : Bool) (stamp : Nat) : List Nat → Int → Int → Receiver (Int × Int)
  | [], emptybufs, fillingbufs => pure (emptybufs, fillingbufs)
  | i :: rest, emptybufs, fillingbufs => do
    yield (envStep cfg)
    let b ← read fun s => s.chunkBuffer i
    if b.state = .empty then
      requestUnfinishedLoop timedout stamp rest (emptybufs + 1) fillingbufs
    else do
      -- the writer may empty the buffer between the two tests
      yield (envStep cfg)
      let b ← read fun s => s.chunkBuffer i
      if b.state = .full then
        requestUnfinishedLoop timedout stamp rest emptybufs fillingbufs
      else do
        requestUnfinished cfg timedout stamp i b
        requestUnfinishedLoop timedout stamp rest emptybufs (fillingbufs + 1)

/-- Issue read-ahead requests: `j` chunks are on the way, `k` are wanted. -/
def requestAhead (timedout : Bool) (stamp : Nat) (k : Int) : List Int → Int → Receiver Unit
  | [], _ => pure ()
  | chunk :: rest, j =>
    if j < k then do
      let c ← read fun s => s.chunks chunk
      -- if already working on this chunk (or it is done), skip it
      if c.seen then requestAhead timedout stamp k rest j
      else if timedout ∨ requestRedoTime cfg c stamp then do
        let csize ← need (chunkSize cfg.sizes chunk)
        requestRange cfg chunk 0 csize
        requestAhead timedout stamp k rest (j + 1)
      else
        requestAhead timedout stamp k rest (j + 1)
    else
      pure ()

/-- The time that requests are made at; it is not needed after a timeout. -/
def requestTime (timedout : Bool) : Receiver Nat :=
  if timedout then pure 0 else gettimeofday cfg

/-- Request a chunk/block/range we do not have. -/
def requestChunk (timedout : Bool) : Receiver Unit := do
  let stamp ← requestTime cfg timedout
  let (emptybufs, fillingbufs) ←
    requestUnfinishedLoop cfg timedout stamp (List.range cfg.maxchunkbufs) 0 0
  if emptybufs = 0 ∨ cfg.maxinprogress ≤ fillingbufs then pure ()
  else requestAhead cfg timedout stamp (min cfg.maxreadahead emptybufs) cfg.chunkRequestList 0

/-! ## Section 3: Blocks -/

/-- Search the chunk buffer for a match; if there is none, the first free and the first dubious buffer. -/
def findChunk (chunk : Int) : List Nat → Option Nat → Option Nat → Receiver (Option Nat × Option Nat × Option Nat)
  | [], free, dubious => pure (none, free, dubious)
  | i :: rest, free, dubious => do
    yield (envStep cfg)
    let b ← read fun s => s.chunkBuffer i
    match b.state with
    | .full => findChunk chunk rest free dubious
    | .empty => findChunk chunk rest (free.or (some i)) dubious
    | .filling =>
      if b.thischunk = chunk then pure (some i, free, dubious)
      else findChunk chunk rest free dubious
    | .dubious =>
      if b.thischunk = chunk then pure (some i, free, dubious)
      else findChunk chunk rest free (dubious.or (some i))

/-- Toss the dubious chunk `dchunk` out of buffer `i`. -/
def evict (i : Nat) (dchunk : Int) (s : Client) : Client :=
  let s := s.setChunk dchunk { s.chunks dchunk with seen := false, lastreq := 0 }
  { s.setState i .empty with lastnoroomchunk := -1, inprogress := s.inprogress - 1 }

/-- Start collecting a chunk of `csize` blocks in buffer `i`. It is dubious if
    a part of it has been missed because of a lack of buffers. -/
def startChunk (i : Nat) (chunk csize : Int) (s : Client) : Client :=
  let state := if chunk = s.lastnoroomchunk then .dubious else .filling
  let s := s.setChunk chunk { s.chunks chunk with seen := true }
  { s.setBuffer i { s.chunkBuffer i with
        state := state, thischunk := chunk, blockcount := csize, blockmap := ∅ } with
    lastnoroomchunk := -1, lastnoroomblocks := 0, inprogress := s.inprogress + 1 }

/-- Drop a block, as there is no buffer for its chunk. -/
def noRoom (chunk : Int) (s : Client) : Client :=
  { s with
    lastnoroomchunk := chunk
    lastnoroomblocks := (if chunk = s.lastnoroomchunk then s.lastnoroomblocks else 0) + 1 }

/-- Start collecting a chunk in a free buffer. -/
def allocFree (chunk : Int) (i : Nat) : Receiver (Option Nat) := do
  let csize ← need (chunkSize cfg.sizes chunk)
  update (startChunk i chunk csize)
  pure (some i)

/-- Allocate a buffer for a chunk that is in none: a free one, or a dubious one
    if this is the start of the chunk. -/
def allocBuffer (chunk block : Int) (free dubious : Option Nat) : Receiver (Option Nat) := do
  let c ← read fun s => s.chunks chunk
  require !c.seen
  match free, dubious with
  | some i, _ => allocFree cfg chunk i
  | none, some i =>
    if block = 0 then do
      let b ← read fun s => s.chunkBuffer i
      let d ← read fun s => s.chunks b.thischunk
      require (!d.done)
      require d.seen
      update (evict i b.thischunk)
      allocFree cfg chunk i
    else do
      update (noRoom chunk)
      pure none
  | none, none => do
    update (noRoom chunk)
    pure none

/-- Store `size` bytes of a block. -/
def storeBlock (blocks : Nat → BlockBuf) (block : Nat) (buf : BlockBuf) (size : Int) : Nat → BlockBuf :=
  fun b => if b = block then fun p => if (p : Int) < size then buf p else blocks b p else blocks b

/-- Release a complete chunk to the writer, and mark it as done. -/
def releaseChunk (i : Nat) (chunk : Int) (s : Client) : Client :=
  let s := { s with inprogress := s.inprogress - 1 }
  let s := s.setState i .full
  { s.setChunk chunk { s.chunks chunk with done := true } with
    handed := s.handed ++ [s.chunkBuffer i] }

/-- Insert a block into buffer `i`. If the chunk is complete, release it, and
    send off a request for a chunk we do not have yet. -/
def insertBlock (i : Nat) (chunk block : Int) (buf : BlockBuf) : Receiver Bool := do
  let b ← read fun s => s.chunkBuffer i
  let (old, map) ← need (blockMapAlloc b.blockmap block)
  if old then pure false
  else do
    let size ← need (blockSize cfg.sizes chunk block)
    let blocks := storeBlock b.blocks block.toNat buf size
    update fun s => s.setBuffer i { b with blockmap := map, blockcount := b.blockcount - 1, blocks := blocks }
    if b.blockcount - 1 = 0 then do
      require (decide (b.thischunk = chunk))
      update (releaseChunk i chunk)
      requestChunk cfg false
      pure true
    else
      pure true

/-- The buffer for a chunk: one that was found, or a new one. -/
def bufferFor (chunk block : Int) (inbuf free dubious : Option Nat) : Receiver (Option Nat) :=
  match inbuf with
  | some i => pure (some i)
  | none => allocBuffer cfg chunk block free dubious

/-- Receive a single data block; whether it was of use. -/
def gotBlock (chunk block : Int) (buf : BlockBuf) : Receiver Bool := do
  let c ← read fun s => s.chunks chunk
  -- if we have already processed this chunk, bail now
  if c.done then do
    require c.seen
    pure false
  else do
    let (inbuf, free, dubious) ← findChunk cfg chunk (List.range cfg.maxchunkbufs) none none
    let found ← bufferFor cfg chunk block inbuf free dubious
    match found with
    | none => pure false
    | some i => do
      let c ← read fun s => s.chunks chunk
      require c.seen
      insertBlock cfg i chunk block buf

/-! ## Section 4: The receiver -/

/-- A useful packet has come: reset the idle counter. -/
def resetIdle (useful : Bool) : Receiver Unit :=
  update fun s => if useful then { s with idleCounter := cfg.idletimer } else s

def gotPacket (p : Packet) : Receiver Unit :=
  match p.msg with
  | .block chunk block buf =>
    -- ensure blocks come from where we expect
    if cfg.serverip ≠ 0 ∧ cfg.serverip ≠ p.srcip then pure ()
    else do
      update fun s => { s with backOff := 0 }
      let useful ← gotBlock cfg chunk block buf
      resetIdle cfg useful
      let _ ← requestStamp cfg chunk block 1 true
      pure ()
  | .request chunk block count => do
    let useful ← requestStamp cfg chunk block count false
    resetIdle cfg useful
  | .prequest chunk _ blockmap => do
    let _ ← blockMapApply (fun block count => requestStamp cfg chunk block count false) blockmap
    pure ()
  | _ => pure ()

def receive (p : Packet) : Receiver Unit := do
  update fun s => if cfg.servertimo ≠ 0 then
    { s with stCounter := cfg.servertimo * TIMEOUT_HZ } else s
  if packetValid p cfg.sizes.totalChunks then gotPacket cfg p else pure ()

/-- The idle counter has run down; it is set again, for longer if the server does not respond. -/
def backOff (s : Client) : Client :=
  if s.backOff ≠ 0 then
    { s with
      idleCounter := cfg.idletimer + (s.backOff + 1)
      backOff := min (s.backOff + 1) TIMEOUT_HZ }
  else
    { s with idleCounter := cfg.idletimer, backOff := s.backOff + 1 }

/-- No packet has come for a tick. -/
def timeout : Receiver Unit := do
  update fun s => if cfg.servertimo ≠ 0 then { s with stCounter := s.stCounter - 1 } else s
  let stCounter ← read fun s => s.stCounter
  if cfg.servertimo ≠ 0 ∧ stCounter ≤ 0 then
    update fun s => { s with childError := true }
  else do
    update fun s => { s with idleCounter := s.idleCounter - 1 }
    let idleCounter ← read fun s => s.idleCounter
    if idleCounter ≤ 0 then do
      requestChunk cfg true
      update (backOff cfg)
    else
      pure ()

inductive Happening where
  | packet (p : Packet)
  /-- No packet arrives for a tick. -/
  | timeout
  /-- The writer, or the clock, takes a step. -/
  | env (e : EnvStep)

/-- A happening, with the steps of the environment while it is handled. -/
structure ClientEvent where
  what : Happening
  /-- The steps of the environment, for each yield. -/
  meanwhile : List (List EnvStep)

/-- The receiver handles a happening; it does nothing when it has exited. -/
def handle (what : Happening) : Receiver Unit := do
  let exited ← read fun s => s.childError
  match what with
  | .env e => update fun s => envStep cfg s e
  | .packet p => if exited then pure () else receive cfg p
  | .timeout => if exited then pure () else timeout cfg

/-- A client handles an event; `none` if an assertion fails. -/
def clientStep (s : Client) (e : ClientEvent) : Option Client :=
  (handle cfg e.what (s, e.meanwhile)).map fun r => r.2.1

end

/-- A client that has joined. What its buffers hold is not determined, except that they are all free. -/
def clientInit (cfg : ClientConfig) (buffers : Nat → ChunkBuffer) (now : Nat) : Client where
  chunks := fun _ => { lastreq := 0, ours := false, seen := false, done := false }
  chunkBuffer := fun i => { buffers i with state := .empty }
  lastnoroomchunk := -1
  lastnoroomblocks := 0
  inprogress := 0
  idleCounter := 1
  backOff := 0
  stCounter := cfg.servertimo * TIMEOUT_HZ
  childError := false
  now := now
  writer := .head
  chunkcount := cfg.sizes.totalChunks
  sent := []
  handed := []

end Emulab.Frisbee
