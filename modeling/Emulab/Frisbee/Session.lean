import Emulab.Frisbee.ClientRuns
import Emulab.Frisbee.PlayFrisbee
import Emulab.Frisbee.WorkQueueInv

/-! # Server, network and client

  The receive thread of the server puts what clients ask for into the queue,
  its main thread takes it out and sends blocks, and a client collects them.
  The network loses, repeats and reorders packets. The server does not compare
  a request with the size of the chunk; what is behind the end of the file is
  not sent, as the file is not that long.
-/

namespace Emulab.Frisbee

open MachineInt BitMap Machine Outcome List

/-! ## Section 1: The receive thread of the server -/

def clientEnqueueMap (q : WorkQueue) (chunk : Int) (map : BlockMap) (count : Int) : Option WorkQueue :=
  (workQueueEnqueueChunk q chunk map count).map Prod.snd

def clientRequest (q : WorkQueue) (chunk block count : Int) : Option WorkQueue :=
  if block < 0 ∨ MAXCHUNKSIZE ≤ block ∨ count ≤ 0 ∨ MAXCHUNKSIZE < count ∨ MAXCHUNKSIZE < block + count then
    some q
  else do
    let tmp ← blockMapInit block count
    clientEnqueueMap q chunk tmp count

def clientPartialRequest (q : WorkQueue) (chunk : Int) (blockmap : BlockMap) : Option WorkQueue := do
  let count ← blockMapIsAlloc blockmap 0 MAXCHUNKSIZE
  if count = 0 then some q else clientEnqueueMap q chunk blockmap count

/-- What `ServerRecvThread` does with a packet; `none` if an assertion fails. -/
def serverReceive (nchunks : Int) (q : WorkQueue) (p : Packet) : Option WorkQueue :=
  if packetValid p nchunks then
    match p.msg with
    | .join clientid => some (workQueueEnqueueJoin q 1 clientid)
    | .join2 clientid .. => some (workQueueEnqueueJoin q 2 clientid)
    | .request chunk block count => clientRequest q chunk block count
    | .prequest chunk _ blockmap => clientPartialRequest q chunk blockmap
    | _ => some q
  else
    some q

/-- The chunk of an element of the queue, or of a piece of work: one of the file, or that of the
    reply to a JOIN. -/
def Served (nchunks chunk : Int) : Prop := 0 ≤ chunk ∧ chunk < nchunks ∨ chunk = -1 ∨ chunk = -2

/-- The invariant of the queue of a server. -/
structure WorkQueue.Serves (nchunks : Int) (q : WorkQueue) : Prop where
  inv : q.Inv
  chunk : ∀ wqel ∈ q.workQ, Served nchunks wqel.chunk

section

variable {q : WorkQueue} {nchunks : Int}

theorem serves_enqueueJoin (h : q.Serves nchunks) {vers : Int} (hvers : vers = 1 ∨ vers = 2) (clientid : Nat) :
    (workQueueEnqueueJoin q vers clientid).Serves nchunks := by
  refine ⟨inv_enqueueJoin h.inv (by omega) clientid, forall_mem_cons.mpr ⟨Or.inr ?_, h.chunk⟩⟩
  dsimp only
  omega

theorem serves_enqueueMap (h : q.Serves nchunks) {chunk : Int} {map : BlockMap} {count : Int}
    (hchunk : 0 ≤ chunk ∧ chunk < nchunks) (hcount : count = map.card) :
    ∃ q', clientEnqueueMap q chunk map count = some q' ∧ q'.Serves nchunks := by
  have hcases := workQueueEnqueueChunk_cases q chunk hcount fun e he hc => h.inv.valid e he (hc ▸ hchunk.1)
  have hinv := fun enqueued q' => @inv_enqueueChunk q q' h.inv chunk map count enqueued hchunk.1 hcount
  unfold clientEnqueueMap
  rcases hcases with ⟨hr, -⟩ | ⟨l', hr, ⟨pre, wqel, wqel', post, hl, rfl, -, hnew, -⟩, -⟩ | ⟨hr, -⟩ <;> rw [hr]
  · exact ⟨q, rfl, h⟩
  · have hall := h.chunk
    rw [hl, forall_mem_append, forall_mem_cons] at hall
    refine ⟨_, rfl, hinv _ _ hr, forall_mem_append.mpr ⟨hall.1, forall_mem_cons.mpr ⟨?_, hall.2.2⟩⟩⟩
    exact Or.inl (hnew ▸ hchunk)
  · refine ⟨_, rfl, hinv _ _ hr, forall_mem_append.mpr ⟨h.chunk, forall_mem_singleton.mpr (Or.inl hchunk)⟩⟩

theorem chunk_of_packetValid {p : Packet} (h : packetValid p nchunks = true) :
    (∀ chunk, p.AsksFor chunk → 0 ≤ chunk ∧ chunk < nchunks) ∧
      ∀ chunk block buf, p.msg = .block chunk block buf → 0 ≤ block := by
  have hrange := inRange_of_packetValid h
  unfold Packet.AsksFor
  cases hmsg : p.msg <;> rw [hmsg] at hrange <;> simp [Msg.inRange] at hrange ⊢ <;> omega

/-- Whatever the packet is, no assertion fails. -/
theorem serverReceive_serves (h : q.Serves nchunks) (p : Packet) :
    ∃ q', serverReceive nchunks q p = some q' ∧ q'.Serves nchunks := by
  unfold serverReceive
  split
  · rename_i hvalid
    have hchunk := (chunk_of_packetValid hvalid).1
    unfold Packet.AsksFor at hchunk
    split
    · exact ⟨_, rfl, serves_enqueueJoin h (Or.inl rfl) _⟩
    · exact ⟨_, rfl, serves_enqueueJoin h (Or.inr rfl) _⟩
    · rename_i chunk block count hmsg
      rw [hmsg] at hchunk
      unfold clientRequest
      split
      · exact ⟨q, rfl, h⟩
      · rename_i hgood
        simp only [MAXCHUNKSIZE] at hgood
        obtain ⟨b, rfl⟩ := Int.eq_ofNat_of_zero_le (show 0 ≤ block by omega)
        obtain ⟨n, rfl⟩ := Int.eq_ofNat_of_zero_le (show 0 ≤ count by omega)
        obtain ⟨m, hm, hmem⟩ := @blockMapInit_spec b n (by omega) (by omega)
        have hcard : (∅ : BlockMap).card + n = m.card :=
          card_remove_run (fun k hlo hhi => (hmem k).mpr ⟨hlo, hhi⟩) fun k => by simp [hmem]
        rw [hm]
        exact serves_enqueueMap h (hchunk chunk rfl) (by rw [← hcard, card_empty, Nat.zero_add])
    · rename_i chunk retries map hmsg
      rw [hmsg] at hchunk
      unfold clientPartialRequest
      rw [blockMapIsAlloc_spec map (by omega) (by decide) (by decide), Int.toNat_natCast, Int.toNat_zero,
        countFrom_all, Option.bind_eq_bind, Option.bind_some]
      split
      · exact ⟨q, rfl, h⟩
      · exact serves_enqueueMap h (hchunk chunk rfl) rfl
    · exact ⟨q, rfl, h⟩
  · exact ⟨q, rfl, h⟩

/-- What is taken off the queue is a range of a chunk, or the reply to a JOIN. The range need not
    end within the blocks that the chunk has. -/
theorem dequeue_serves (h : q.Serves nchunks) : ∃ w q', workQueueDequeue q = some (w, q') ∧
    q'.Serves nchunks ∧ ∀ work ∈ w, Served nchunks work.chunk ∧ (0 ≤ work.chunk →
      ∃ block count : Nat, work.block = some (block : Int) ∧ work.count = count ∧ block + count ≤ MAXCHUNKSIZE) := by
  obtain ⟨s', hstep, hinv⟩ := inv_step (s := ⟨q, []⟩) (c := .dequeue) h.inv trivial
  have hall := h.chunk
  obtain ⟨-, hr⟩ | ⟨wqel, behind, hq, hneg, hr⟩ | ⟨w, q', hr, -, hrange, -⟩ := workQueueDequeue_cases q h.inv.valid
  all_goals
    simp only [QueueState.step, hr, Option.bind_eq_bind, Option.bind_some, Option.some.injEq] at hstep
    subst hstep
    refine ⟨_, _, hr, ⟨hinv, ?_⟩, ?_⟩
  · exact hall
  · simp
  · rw [hq, forall_mem_cons] at hall
    exact hall.2
  · rw [hq, forall_mem_cons] at hall
    rintro _ ⟨⟩
    exact ⟨hall.1, fun hle => absurd hneg (Int.not_lt.mpr hle)⟩
  · obtain ⟨wqel, behind, block, count, hq, -, -, -, -, -, -, hrest⟩ := hrange
    rw [hq, forall_mem_cons] at hall
    rcases hrest with ⟨hq', -⟩ | ⟨wqel', hq', hsame, -⟩
    · exact hq' ▸ hall.2
    · exact hq' ▸ forall_mem_cons.mpr ⟨hsame ▸ hall.1, hall.2⟩
  · obtain ⟨wqel, behind, block, count, hq, hsame, hblock, hcount, -, hfit, -⟩ := hrange
    rw [hq, forall_mem_cons] at hall
    rintro _ ⟨⟩
    exact ⟨hsame ▸ hall.1, fun _ => ⟨block, count, hblock, hcount, hfit⟩⟩

end

/-! ## Section 2: Ranges that do not end within their chunk -/

/-- A server of a file and a client that has joined it. -/
structure Setting where
  env : ServerEnv
  info : FileInfo
  /-- What the `-R` option gives. -/
  readsize : Nat
  cfg : ClientConfig
  works : env.Works
  /-- The number of blocks is an `int`. -/
  fits : env.filesize ≤ MAXBLOCKSIZE * (2 ^ 31 - 1)
  init : initFile env.filesize = some info
  readsize_pos : 0 < readsize
  joined : cfg.Joined
  /-- The client has been told the size of the file. -/
  sizes : cfg.sizes = info.sizes

section

variable {env : ServerEnv} {info : FileInfo} {st : PlayState} {chunk last block readsize : Nat}

/-- A byte of the file, with zeros behind its end. -/
def fileByte (env : ServerEnv) (pos : Nat) : Byte := if pos < env.filesize then env.data pos else 0

/-- If the packet is a block, it is one of the file. -/
def FromFile (g : Setting) (p : Packet) : Prop :=
  ∀ chunk block buf, p.msg = .block chunk block buf →
    (∃ csize, chunkSize g.cfg.sizes chunk = some csize ∧ block < csize) ∧
      ∀ i < MAXBLOCKSIZE, buf i = fileByte g.env (blockOffset chunk block + i)

theorem fromFile_fileBlock (g : Setting) (hchunk : (chunk : Int) < g.cfg.sizes.totalChunks) {k : Nat}
    (hfile : InFile g.env chunk (k + 1)) : FromFile g (fileBlock g.env chunk k) := by
  intro c b buf hmsg
  obtain ⟨rfl, rfl, rfl⟩ := Msg.block.inj hmsg
  refine ⟨?_, fun i hi => by simp only [hi, true_and, fileByte]⟩
  have hinit := g.sizes ▸ (initFile_some g.init).1
  obtain ⟨hwf, -, htotal, -⟩ := wellFormed_initSizes hinit
  have hfits := g.fits
  have hdef : g.cfg.sizes.lastBlocks = g.cfg.sizes.totalBlocks - 1024 * (g.cfg.sizes.totalChunks - 1) := rfl
  obtain ⟨-, hlast, hoffset⟩ := hfile
  simp only [MAXCHUNKSIZE, MAXBLOCKSIZE] at hlast hoffset hfits
  rw [toInt64_of_range (by omega) (by omega), Int.tdiv_eq_ediv_of_nonneg (by omega),
    toInt32_of_range (by omega) (by omega)] at htotal
  rw [hwf.chunkSize_eq (by omega) hchunk]
  refine ⟨_, rfl, ?_⟩
  clear hinit
  split_ifs <;> omega

theorem readcount_eq (hlt : block < last) (hlast : last ≤ 1024) :
    (if (readsize : Int) < toInt32 ((last : Int) - block) then (readsize : Int) else toInt32 ((last : Int) - block)) =
      (min readsize (last - block) : Nat) := by
  rw [← Int.natCast_sub (Nat.le_of_lt hlt), toInt32_natCast (by omega)]
  split_ifs <;> omega

/-- A window depends on the end of the range only as far as it reaches. -/
theorem playWindow_min (hnext : st.block = block) (hlt : block < last) (hlast : last ≤ 1024) (hpos : 0 < readsize) :
    playWindow env info readsize chunk last st =
      playWindow env info readsize chunk (block + min readsize (last - block) : Nat) st := by
  have hmin : min readsize (block + min readsize (last - block) - block) = min readsize (last - block) := by omega
  unfold playWindow
  rw [hnext, readcount_eq hlt hlast, readcount_eq (by omega) (by omega), hmin]

/-- A window with a block that is behind the end of the file is not sent. -/
theorem playWindow_past (hinfo : info.Describes env) (hnext : st.block = block) (hlt : block < last)
    (hlast : last ≤ 1024) {offset : Nat} (hoffset : st.offset = offset) (hsmall : offset < 2 ^ 62)
    (hpast : env.filesize + MAXBLOCKSIZE ≤ offset + MAXBLOCKSIZE * min readsize (last - block)) :
    playWindow env info readsize chunk last st = .ok none := by
  unfold playWindow
  rw [hnext, readcount_eq hlt hlast, hoffset, hinfo.filesize]
  have hmin : min readsize (last - block) ≤ 1024 := by omega
  generalize min readsize (last - block) = n at *
  simp only [MAXBLOCKSIZE] at *
  have hbytes : toInt32 ((n : Int) * (1024 : Nat)) = (1024 * n : Nat) := by
    rw [toInt32_of_range (by omega) (by omega)]
    omega
  have hdiff : toInt64 ((offset + 1024 * n : Nat) - (env.filesize : Int)) = (offset + 1024 * n : Nat) - env.filesize :=
    toInt64_of_range (by omega) (by omega)
  rw [hbytes, ← Int.natCast_add, toInt64_natCast (by omega), if_pos (by omega), hdiff, if_neg (by omega)]

/-- The part of a range that is in the file is sent, and nothing else. -/
theorem yields_playLoop_any (henv : env.Works) (hinfo : info.Describes env) (hchunk : chunk + 1 < 2 ^ 21)
    (hlast : last ≤ 1024) (hpos : 0 < readsize) {fuel : Nat} (hfuel : last - block < fuel) (st : PlayState)
    (hnext : st.block = block) {offset : Nat} (hat : st.offset = offset) (hsmall : offset < 2 ^ 62)
    (hoffset : offset = blockOffset chunk block ∨ env.filesize ≤ offset) (hsize : st.databuf.size = MAXBLOCKSIZE * readsize) :
    Yields False (playLoop env info readsize chunk last fuel st) fun st' =>
      st'.databuf.size = MAXBLOCKSIZE * readsize ∧
        ∀ p ∈ st'.sent, p ∈ st.sent ∨ ∃ k : Nat, InFile env chunk (k + 1) ∧ p = fileBlock env chunk k := by
  induction fuel generalizing block offset st with
  | zero => omega
  | succ fuel ih =>
    unfold playLoop
    by_cases hlt : block < last
    · rw [hnext, if_pos (Int.ofNat_lt.mpr hlt)]
      have hn_pos : 0 < min readsize (last - block) := by omega
      have hn_le : block + min readsize (last - block) ≤ last := by omega
      have hblock := blockOffset_nat chunk block
      simp only [MAXBLOCKSIZE, MAXCHUNKSIZE] at hblock
      by_cases hpast : env.filesize + MAXBLOCKSIZE ≤ offset + MAXBLOCKSIZE * min readsize (last - block)
      · rw [playWindow_past hinfo hnext hlt hlast hat hsmall hpast]
        exact ⟨hsize, fun p hp => Or.inl hp⟩
      · -- the window ends with the last block of the file at the latest
        rw [playWindow_min hnext hlt hlast hpos]
        generalize min readsize (last - block) = n at *
        simp only [MAXBLOCKSIZE] at hpast
        obtain rfl : offset = blockOffset chunk block := hoffset.resolve_right (by omega)
        have hfile : InFile env chunk (block + n) := by
          constructor <;> simp only [MAXBLOCKSIZE, MAXCHUNKSIZE] <;> omega
        apply Yields.bind (yields_playWindow henv hinfo hfile ⟨hnext, hat, hsize⟩ hpos (by omega))
        rintro _ ⟨st', m, rfl, hm_pos, hm_le, hsent, -⟩
        have hadd := blockOffset_add chunk block m
        have hwindow : windowBytes MAXBLOCKSIZE m env.filesize (blockOffset chunk block) =
          min (1024 * m) (env.filesize - blockOffset chunk block) := rfl
        simp only [MAXBLOCKSIZE] at hadd
        apply (ih (by omega) st' hsent.next (by rw [hsent.offset, hat, ← Int.natCast_add]) (by omega) (by omega)
          (hsent.size.trans hsize)).imp
        rintro st'' ⟨hsize'', hall⟩
        refine ⟨hsize'', fun p hp => ?_⟩
        rcases hall p hp with hp | hp
        · rw [hsent.sent] at hp
          refine (mem_append.mp hp).imp_right fun hp => ?_
          obtain ⟨j, hj, rfl⟩ := List.mem_map.mp hp
          have hj := mem_range.mp hj
          have := hfile.offset_lt
          refine ⟨block + j, ?_, rfl⟩
          constructor <;> simp only [MAXBLOCKSIZE, MAXCHUNKSIZE] at * <;> omega
        · exact Or.inr hp
    · rw [hnext, if_neg (fun h => hlt (Int.ofNat_lt.mp h))]
      exact ⟨hsize, fun p hp => Or.inl hp⟩

theorem yields_playWork_any (g : Setting) (hsize : st.databuf.size = MAXBLOCKSIZE * g.readsize)
    (hsent : ∀ p ∈ st.sent, FromFile g p) {w : Work} (hchunk : Served g.cfg.sizes.totalChunks w.chunk)
    (hrange : 0 ≤ w.chunk → ∃ block count : Nat,
      w.block = some (block : Int) ∧ w.count = count ∧ block + count ≤ MAXCHUNKSIZE) :
    Yields False (playWork (MAXCHUNKSIZE + 1) g.env g.info g.readsize st w) fun st' =>
      st'.databuf.size = MAXBLOCKSIZE * g.readsize ∧ ∀ p ∈ st'.sent, FromFile g p := by
  obtain ⟨-, hsame, himage⟩ := initFile_some g.init
  rw [← g.sizes] at himage
  rcases hchunk with ⟨hchunk, hlt⟩ | hjoin
  · obtain ⟨b, n, hblock, hcount, hfit⟩ := hrange hchunk
    obtain ⟨c, hc⟩ := Int.eq_ofNat_of_zero_le hchunk
    have hsmall := g.joined.wellFormed.sizes.totalChunks_lt
    have hfits : g.env.filesize < 2 ^ 63 := Nat.lt_of_le_of_lt g.fits (by decide)
    have hoffset := blockOffset_nat c b
    simp only [MAXBLOCKSIZE, MAXCHUNKSIZE] at hfit hoffset
    have hstart : (MAXBLOCKSIZE * (c : Int) * MAXCHUNKSIZE + MAXBLOCKSIZE * (b : Int)) = (blockOffset c b : Int) := by
      simp only [MAXBLOCKSIZE, MAXCHUNKSIZE]
      omega
    have hfuel : b + n - b < MAXCHUNKSIZE + 1 := by
      simp only [MAXCHUNKSIZE]
      omega
    rw [hc] at hlt
    unfold playWork
    rw [hc, if_neg (Int.not_lt.mpr (Int.natCast_nonneg _)), hblock, hcount]
    dsimp only
    rw [hstart, toInt64_natCast (by omega), ← Int.natCast_add, toInt32_natCast (by omega)]
    apply (yields_playLoop_any g.works ⟨hsame, hfits, himage (by omega)⟩ (by omega) hfit g.readsize_pos hfuel
      { st with offset := blockOffset c b, block := b } rfl rfl (by omega) (Or.inl rfl) hsize).imp
    rintro st' ⟨hsize', hall⟩
    refine ⟨hsize', fun p hp => (hall p hp).elim (hsent p) ?_⟩
    rintro ⟨k, hfile, rfl⟩
    exact fromFile_fileBlock g hlt hfile
  · -- a reply is no block
    have hreply : ∃ msg, joinReply g.env g.info (-w.chunk) w.count = .ok (mkPacket PKTTYPE_REPLY g.env.srcip msg) ∧
        ∀ chunk block buf, msg ≠ .block chunk block buf := by
      unfold joinReply
      rcases hjoin with h | h <;> rw [h]
      · exact ⟨_, rfl, by simp⟩
      · exact ⟨_, rfl, by simp⟩
    obtain ⟨msg, hmsg, hno⟩ := hreply
    unfold playWork
    rw [if_pos (by omega), hmsg]
    exact ⟨hsize, forall_mem_append.mpr ⟨hsent, forall_mem_singleton.mpr fun c b buf h => absurd h (hno c b buf)⟩⟩

end

/-! ## Section 3: The session -/

/-- The server and a client. What the network may deliver is what has been sent. -/
structure Session where
  queue : WorkQueue
  play : PlayState
  client : Client

inductive SessionStep where
  /-- The receive thread gets a packet, of this client or of another one. -/
  | serve (p : Packet)
  /-- The main thread processes the next piece of work. -/
  | play
  | client (e : ClientEvent)

section

variable (g : Setting)

/-- One step; `none` if the server or the client stops. -/
def Session.step (s : Session) : SessionStep → Option Session
  | .serve p => do
    let queue ← serverReceive g.cfg.sizes.totalChunks s.queue p
    some { s with queue := queue }
  | .play => do
    match ← workQueueDequeue s.queue with
    | (none, queue) => some { s with queue := queue }
    | (some w, queue) =>
      let play ← (playWork (MAXCHUNKSIZE + 1) g.env g.info g.readsize s.play w).toOption
      some { s with queue := queue, play := play }
  | .client e => do
    let client ← clientStep g.cfg s.client e
    some { s with client := client }

def Session.start (buffers : Nat → ChunkBuffer) (now : Nat) : Session where
  queue := workQueueInit
  play := { offset := 0, block := 0, databuf := ⟨MAXBLOCKSIZE * g.readsize, g.env.garbage⟩, calls := 0, sent := [] }
  client := clientInit g.cfg buffers now

/-- A block that the client gets is one that the server has sent. It may have been delivered
    before, and blocks that were sent earlier may have been lost or still be on their way. -/
def Delivered (s : Session) : SessionStep → Prop
  | .client e => ∀ p, e.what = .packet p → ∀ chunk block buf, p.msg = .block chunk block buf → p ∈ s.play.sent
  | _ => True

/-- The bytes of a block are those of the file, as far as the block goes. -/
def Copies (chunk : Int) (block : Nat) (buf : BlockBuf) : Prop :=
  ∀ size, blockSize g.cfg.sizes chunk block = some size → ∀ i < MAXBLOCKSIZE, (i : Int) < size →
    buf i = fileByte g.env (blockOffset chunk block + i)

/-- The invariant of a session. -/
structure Session.Inv (s : Session) : Prop where
  queue : s.queue.Serves g.cfg.sizes.totalChunks
  size : s.play.databuf.size = MAXBLOCKSIZE * g.readsize
  sent : ∀ p ∈ s.play.sent, FromFile g p
  client : ClientInv g.cfg (Copies g) s.client

variable {g} {s : Session}

theorem goodEvent_copies (h : s.Inv g) {e : ClientEvent} (hnet : Delivered s (.client e)) :
    GoodEvent g.cfg (Copies g) e ∧ BlocksFit g.cfg s.client e := by
  unfold GoodEvent BlocksFit
  cases hwhat : e.what with
  | packet p =>
    dsimp only
    unfold GoodPacket BlockFits
    cases hmsg : p.msg with
    | block chunk block buf =>
      obtain ⟨hfits, hbytes⟩ := h.sent p (hnet p hwhat _ _ _ hmsg) _ _ _ hmsg
      refine ⟨fun hvalid _ old size hsize size' hsize' i hi hlt => ?_, Or.inr (Or.inr (Or.inr (Or.inl hfits)))⟩
      rw [Int.toNat_of_nonneg ((chunk_of_packetValid hvalid).2 _ _ _ hmsg)] at hsize' ⊢
      obtain rfl := Option.some.inj (hsize.symm.trans hsize')
      exact (if_pos hlt).trans (hbytes i hi)
    | _ => exact ⟨fun _ => trivial, Or.inr (Or.inr trivial)⟩
  | _ => exact ⟨trivial, trivial⟩

/-- Every step keeps the invariant, and it is not the server that stops. -/
theorem Session.Inv.step (h : s.Inv g) {e : SessionStep} (hnet : Delivered s e) :
    match s.step g e with
    | some s' => s'.Inv g
    | none => ∃ c, e = .client c := by
  cases e with
  | serve p =>
    obtain ⟨q, hq, hserves⟩ := serverReceive_serves h.queue p
    simp only [Session.step, hq]
    exact ⟨hserves, h.size, h.sent, h.client⟩
  | play =>
    obtain ⟨w, q, hq, hserves, hw⟩ := dequeue_serves h.queue
    cases w with
    | none =>
      simp only [Session.step, hq]
      exact ⟨hserves, h.size, h.sent, h.client⟩
    | some w =>
      obtain ⟨hchunk, hrange⟩ := hw w rfl
      obtain ⟨st, hst, hsize, hsent⟩ := (yields_playWork_any g h.size h.sent hchunk hrange).returns not_false
      simp only [Session.step, hq, Option.bind_eq_bind, Option.bind_some, hst, Except.toOption]
      exact ⟨hserves, hsize, hsent, h.client⟩
  | client e =>
    obtain ⟨hgood, hblocks⟩ := goodEvent_copies h hnet
    have hspec := clientStep_spec (m := True) g.joined.wellFormed h.client hgood hblocks (Or.inl trivial)
    cases hc : clientStep g.cfg s.client e with
    | none =>
      simp only [Session.step, hc]
      exact ⟨e, rfl⟩
    | some c =>
      rw [hc] at hspec
      simp only [Session.step, hc]
      exact ⟨h.queue, h.size, h.sent, hspec.1⟩

theorem meets_client {l : List Packet} (hl : ∀ p ∈ l, p ∈ s.play.sent) :
    Meets (Session.step g) Delivered s (l.map fun p => .client ⟨.packet p, []⟩) := by
  induction l generalizing s with
  | nil => trivial
  | cons p l ih =>
    obtain ⟨hp, hl⟩ := forall_mem_cons.mp hl
    refine ⟨fun q hq _ _ _ _ => Happening.packet.inj hq ▸ hp, fun s' hs' => ih ?_⟩
    obtain ⟨c, -, rfl⟩ : ∃ c, clientStep g.cfg s.client ⟨.packet p, []⟩ = some c ∧ { s with client := c } = s' := by
      simpa [Session.step, Option.bind_eq_some_iff] using hs'
    exact hl

end

/-- A server of a block and a half, and a client that has joined it. -/
def shortSetting : Setting where
  env := shortServer
  info := shortInfo
  readsize := 1
  cfg := { twoBlockFile with sizes := shortInfo.sizes }
  works := shortServer_works
  fits := by decide
  init := initFile_short
  readsize_pos := by decide
  joined := ⟨⟨1024, 1024, 1536, by decide +kernel⟩, .refl _⟩
  sizes := rfl

/-- Somebody asks for more than the file has, and gets what there is. -/
def shortRequest : List SessionStep := [.serve (mkPacket PKTTYPE_REQUEST 1 (.request 0 0 1024)), .play]

def shortSent : List Packet :=
  ((run (Session.step shortSetting) (.start shortSetting (fun _ => newBuffer) 1) shortRequest).map
    (·.play.sent)).getD []

end Emulab.Frisbee
