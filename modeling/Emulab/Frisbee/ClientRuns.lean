import Emulab.Frisbee.ClientBlocks
import Emulab.Lib.Machine

/-! # Runs of the client

  The receiver keeps the invariant from packet to packet, whatever the
  writer does meanwhile. In a run whose packets meet a condition no assertion
  fails, and what is handed to the writer is complete.
-/

namespace Emulab.Frisbee

open MachineInt Thread BitMap List Option

variable {cfg : ClientConfig} {Good : Int → Nat → BlockBuf → Prop} {m : Prop}

/-! ## Section 1: One packet -/

/-- A `BLOCK` packet does not bring a block that is not one of its chunk. -/
def BlockFits (cfg : ClientConfig) (s : Client) (p : Packet) : Prop :=
  match p.msg with
  | .block chunk block _ =>
    cfg.serverip ≠ 0 ∧ cfg.serverip ≠ p.srcip ∨ BlockOk cfg chunk block s
  | _ => True

/-- A `REQUEST` packet does not lead to an assertion. -/
def RequestFits (cfg : ClientConfig) (s : Client) (p : Packet) : Prop :=
  match p.msg with
  | .request chunk block count => StampOk cfg False s chunk block count
  | _ => True

/-- The data of a `BLOCK` packet that may be stored are good. -/
def GoodPacket (cfg : ClientConfig) (Good : Int → Nat → BlockBuf → Prop) (p : Packet) : Prop :=
  match p.msg with
  | .block chunk block buf =>
    (¬(cfg.serverip ≠ 0 ∧ cfg.serverip ≠ p.srcip) ∧
      ∃ csize, chunkSize cfg.sizes chunk = some csize ∧ block < csize) →
    GoodData cfg Good chunk block buf
  | _ => True

theorem Same.stampable {before s : Client} (h : Same before s) (chunk : Int) : Stampable before s chunk := by
  unfold Stampable
  rw [← h.1]
  cases (s.chunks chunk).seen with
  | true => exact Or.inl rfl
  | false => exact Or.inr (Or.inl rfl)

theorem resetIdle_ensures (before : Client) (useful : Bool) {P : Client → Prop}
    (hP : ∀ s idle, P s → P { s with idleCounter := idle }) :
    Ensures m (fun s => ClientInv cfg Good s ∧ Since before s ∧ P s) (resetIdle cfg useful)
      fun _ s => ClientInv cfg Good s ∧ Since before s ∧ P s := by
  apply ensures_update
  intro s h
  split
  · exact ⟨h.1.congr rfl (fun _ => rfl) (fun _ => rfl) rfl rfl rfl, h.2.1.congr rfl rfl, hP s _ h.2.2⟩
  · exact h

theorem gotPacket_ensures (hcfg : cfg.WellFormed) (before : Client) {p : Packet}
    (hrange : p.msg.inRange cfg.sizes.totalChunks = true) (hgood : GoodPacket cfg Good p) :
    Ensures m (fun s => ClientInv cfg Good s ∧ Same before s ∧ BlockFits cfg s p ∧
        (m ∨ RequestFits cfg s p)) (gotPacket cfg p) fun _ s => ClientInv cfg Good s ∧ Since before s := by
  have hskip : Ensures m (fun s => ClientInv cfg Good s ∧ Same before s ∧ BlockFits cfg s p ∧
        (m ∨ RequestFits cfg s p))
      (pure () : Receiver Unit) fun _ s => ClientInv cfg Good s ∧ Since before s :=
    ensures_pure fun s h => ⟨h.1, h.2.1.since⟩
  unfold gotPacket
  unfold BlockFits RequestFits at hskip ⊢
  unfold GoodPacket at hgood
  cases hmsg : p.msg with
  | block chunk block buf =>
    rw [hmsg] at hrange hgood
    simp only [hmsg] at hskip ⊢
    simp only [Msg.inRange, Bool.not_eq_true', Bool.or_eq_false_iff, decide_eq_false_iff_not,
      not_lt, not_le, MAXCHUNKSIZE] at hrange
    obtain ⟨⟨⟨hlo, hhi⟩, hblock⟩, hblockhi⟩ := hrange
    obtain ⟨csize, hsize, -⟩ := hcfg.sizes.chunkSize_range hlo hhi
    split
    · exact hskip
    rename_i hserver
    apply Ensures.bind (R := fun _ s =>
      ClientInv cfg Good s ∧ Same before s ∧ BlockOk cfg chunk block s)
    · apply ensures_update
      intro s h
      obtain ⟨hinv, hsame, hfits, -⟩ := h
      exact ⟨hinv.congr rfl (fun _ => rfl) (fun _ => rfl) rfl rfl rfl, hsame, hfits.resolve_left hserver⟩
    intro _
    apply (gotBlock_ensures hcfg before hlo hhi hblock (fun hfit => hgood ⟨hserver, hfit⟩)).bind
    intro useful
    apply (resetIdle_ensures before useful (fun s idle h => h.congr rfl rfl)).bind
    intro _
    apply Ensures.bind
    · apply (requestStamp_ensures before block 1 true hsize).pre
      intro s h
      refine ⟨h.1, h.2, ?_⟩
      right; right; right; right; right
      omega
    · exact fun _ => ensures_pure fun s h => ⟨h.1, h.2.1⟩
  | request chunk block count =>
    rw [hmsg] at hrange
    simp only [hmsg] at hskip ⊢
    simp only [Msg.inRange, Bool.not_eq_true', Bool.or_eq_false_iff, decide_eq_false_iff_not,
      not_lt, not_le] at hrange
    obtain ⟨⟨⟨⟨⟨hlo, hhi⟩, -⟩, -⟩, -⟩, -⟩ := hrange
    obtain ⟨csize, hsize, -⟩ := hcfg.sizes.chunkSize_range hlo hhi
    apply Ensures.bind
    · apply (requestStamp_ensures before block count false hsize).pre
      intro s h
      obtain ⟨hinv, hsame, -, hok⟩ := h
      exact ⟨hinv, ⟨hsame.since, hsame.stampable chunk⟩, hok.elim Or.inl fun hok => Or.inr (hok.resolve_left id)⟩
    intro useful
    exact (resetIdle_ensures before useful (fun s idle h => h.congr rfl rfl)).post
      fun _ s h => ⟨h.1, h.2.1⟩
  | prequest chunk retries blockmap =>
    rw [hmsg] at hrange
    simp only [hmsg] at hskip ⊢
    simp only [Msg.inRange, Bool.not_eq_true', Bool.or_eq_false_iff, decide_eq_false_iff_not,
      not_lt, not_le] at hrange
    obtain ⟨csize, hsize, -⟩ := hcfg.sizes.chunkSize_range hrange.1 hrange.2
    apply Ensures.bind (R := fun _ s =>
      ClientInv cfg Good s ∧ Since before s ∧ Stampable before s chunk)
    · apply (blockMapApply_ensures (P := fun s =>
        ClientInv cfg Good s ∧ Since before s ∧ Stampable before s chunk) ?_ blockmap).pre
      · exact fun s h => ⟨h.1, h.2.1.since, h.2.1.stampable chunk⟩
      · intro block count hcount hfit
        apply (requestStamp_ensures before block count false hsize).pre
        intro s h
        refine ⟨h.1, h.2, ?_⟩
        right; right; right; right; right
        omega
    · exact fun _ => ensures_pure fun s h => ⟨h.1, h.2.1⟩
  | join => simpa only [hmsg] using hskip
  | leave => simpa only [hmsg] using hskip
  | leave2 => simpa only [hmsg] using hskip
  | join2 => simpa only [hmsg] using hskip
  | unknown => simpa only [hmsg] using hskip

/-- No packet has come for a tick. -/
theorem timeout_ensures (hcfg : cfg.WellFormed) (before : Client) :
    Ensures m (fun s => ClientInv cfg Good s ∧ Since before s) (timeout cfg)
      fun _ s => ClientInv cfg Good s ∧ Since before s := by
  -- the counters are not part of the invariant
  have hupdate : ∀ f : Client → Client, (∀ s, (f s).chunkBuffer = s.chunkBuffer ∧
      (f s).chunks = s.chunks ∧ (f s).inprogress = s.inprogress ∧ (f s).handed = s.handed ∧
      (f s).writer = s.writer ∧ (f s).sent = s.sent) →
      Ensures m (fun s => ClientInv cfg Good s ∧ Since before s) (update f : Receiver Unit)
        fun _ s => ClientInv cfg Good s ∧ Since before s := by
    intro f hf
    apply ensures_update
    intro s h
    obtain ⟨hbuffer, hchunks, hinprogress, hhanded, hwriter, hsent⟩ := hf s
    exact ⟨h.1.congr hbuffer (fun c => by rw [hchunks]) (fun c => by rw [hchunks]) hinprogress
      hhanded hwriter, h.2.congr hchunks hsent⟩
  unfold timeout
  apply Ensures.bind
  · apply hupdate
    intro s
    split <;> simp
  intro _
  apply ensures_read.bind
  intro stCounter
  split
  · exact (hupdate _ fun s => by simp).pre fun s h => h.1
  apply Ensures.bind
  · exact (hupdate (fun s => { s with idleCounter := s.idleCounter - 1 })
      fun s => by simp).pre fun s h => h.1
  intro _
  apply ensures_read.bind
  intro idleCounter
  split
  · apply Ensures.bind
    · exact (requestChunk_ensures hcfg before true).pre fun s h => h.1
    · intro _
      apply hupdate
      intro s
      unfold backOff
      split <;> simp
  · exact ensures_pure fun s h => h.1

/-- What the packet of an event must be like, for the blocks that are kept. -/
def BlocksFit (cfg : ClientConfig) (s : Client) (e : ClientEvent) : Prop :=
  match e.what with
  | .packet p =>
    s.childError = true ∨ packetValid p cfg.sizes.totalChunks = false ∨ BlockFits cfg s p
  | _ => True

/-- What the packet of an event must be like, for the requests that are noted. -/
def RequestsFit (cfg : ClientConfig) (s : Client) (e : ClientEvent) : Prop :=
  match e.what with
  | .packet p =>
    s.childError = true ∨ packetValid p cfg.sizes.totalChunks = false ∨ RequestFits cfg s p
  | _ => True

/-- The data of an event's packet are good, if it is accepted. -/
def GoodEvent (cfg : ClientConfig) (Good : Int → Nat → BlockBuf → Prop) (e : ClientEvent) : Prop :=
  match e.what with
  | .packet p => packetValid p cfg.sizes.totalChunks = true → GoodPacket cfg Good p
  | _ => True

theorem receive_ensures (hcfg : cfg.WellFormed) (before : Client) {p : Packet}
    (hgood : packetValid p cfg.sizes.totalChunks = true → GoodPacket cfg Good p) :
    Ensures m (fun s => ClientInv cfg Good s ∧ Same before s ∧ (packetValid p cfg.sizes.totalChunks = false ∨
          BlockFits cfg s p ∧ (m ∨ RequestFits cfg s p)))
      (receive cfg p) fun _ s => ClientInv cfg Good s ∧ Since before s := by
  have hfits : ∀ (s : Client) (n : Int), BlockFits cfg s p ∧ (m ∨ RequestFits cfg s p) →
      BlockFits cfg { s with stCounter := n } p ∧ (m ∨ RequestFits cfg { s with stCounter := n } p) := by
    intro s n h
    unfold BlockFits RequestFits at h ⊢
    cases hmsg : p.msg <;> simp only [hmsg] at h ⊢ <;> exact h
  unfold receive
  apply Ensures.bind (R := fun _ s => ClientInv cfg Good s ∧ Same before s ∧
    (packetValid p cfg.sizes.totalChunks = false ∨ BlockFits cfg s p ∧ (m ∨ RequestFits cfg s p)))
  · apply ensures_update
    intro s h
    split
    · exact ⟨h.1.congr rfl (fun _ => rfl) (fun _ => rfl) rfl rfl rfl, h.2.1, h.2.2.imp_right (hfits s _)⟩
    · exact h
  intro _
  split
  · rename_i hvalid
    apply (gotPacket_ensures hcfg before (inRange_of_packetValid hvalid) (hgood hvalid)).pre
    intro s h
    refine ⟨h.1, h.2.1, h.2.2.resolve_left ?_⟩
    rw [hvalid]
    decide
  · exact ensures_pure fun s h => ⟨h.1, h.2.1.since⟩

/-- One event: the invariant is kept, and no assertion fails. -/
theorem clientStep_spec (hcfg : cfg.WellFormed) {s : Client} {e : ClientEvent}
    (h : ClientInv cfg Good s) (hgood : GoodEvent cfg Good e) (hblocks : BlocksFit cfg s e)
    (hrequests : m ∨ RequestsFit cfg s e) :
    match clientStep cfg s e with
    | some s' => ClientInv cfg Good s' ∧ Since s s'
    | none => m := by
  have hhandle : Ensures m (fun s' => s' = s) (handle cfg e.what)
      fun _ s' => ClientInv cfg Good s' ∧ Since s s' := by
    unfold handle
    apply ensures_read.bind
    intro exited
    unfold BlocksFit at hblocks
    unfold RequestsFit at hrequests
    unfold GoodEvent at hgood
    cases hwhat : e.what with
    | env st =>
      apply ensures_update
      intro s' h'
      obtain ⟨rfl, -⟩ := h'
      have hr := released_envStep h st
      exact ⟨h.envStep st, (Since.refl s').congr hr.chunks hr.sent⟩
    | packet p =>
      simp only [hwhat] at hblocks hrequests hgood
      dsimp only
      split
      · apply ensures_pure
        intro s' h'
        obtain ⟨rfl, -⟩ := h'
        exact ⟨h, Since.refl s'⟩
      · rename_i hexited
        apply (receive_ensures hcfg s hgood).pre
        intro s' h'
        obtain ⟨rfl, rfl⟩ := h'
        have hrequests := hrequests.imp_right fun hr => hr.resolve_left hexited
        refine ⟨h, ⟨rfl, rfl⟩, ?_⟩
        rcases hblocks.resolve_left hexited with hinvalid | hblocks
        · exact Or.inl hinvalid
        · rcases hrequests with hm | hinvalid | hrequests
          · exact Or.inr ⟨hblocks, Or.inl hm⟩
          · exact Or.inl hinvalid
          · exact Or.inr ⟨hblocks, Or.inr hrequests⟩
    | timeout =>
      dsimp only
      split
      · apply ensures_pure
        intro s' h'
        obtain ⟨rfl, -⟩ := h'
        exact ⟨h, Since.refl s'⟩
      · apply (timeout_ensures hcfg s).pre
        intro s' h'
        obtain ⟨rfl, -⟩ := h'
        exact ⟨h, Since.refl s'⟩
  have hrun := hhandle s e.meanwhile rfl
  unfold clientStep
  cases hr : handle cfg e.what (s, e.meanwhile) with
  | none =>
    rw [hr] at hrun
    exact hrun
  | some r =>
    rw [hr] at hrun
    exact hrun

theorem clientInv_init (cfg : ClientConfig) (Good : Int → Nat → BlockBuf → Prop)
    (buffers : Nat → ChunkBuffer) (now : Nat) : ClientInv cfg Good (clientInit cfg buffers now) := by
  constructor <;> simp [clientInit, Client.InBuffer, BufState.inProgress]

/-! ## Section 2: The state of the chunks -/

/-- What a client gets when it joins, and makes of it: the sizes of a file, and its chunks in some order. -/
structure ClientConfig.Joined (cfg : ClientConfig) : Prop where
  sizes : ∃ chunksize blocksize bytes, initSizes chunksize blocksize bytes = some cfg.sizes
  requestList : cfg.chunkRequestList.Perm ((List.range cfg.sizes.totalChunks.toNat).map Int.ofNat)

theorem ClientConfig.Joined.wellFormed (h : cfg.Joined) : cfg.WellFormed := by
  obtain ⟨chunksize, blocksize, bytes, hsizes⟩ := h.sizes
  constructor
  · exact (wellFormed_initSizes hsizes).1
  · intro c hc
    rw [h.requestList.mem_iff, List.mem_map] at hc
    obtain ⟨n, hn, rfl⟩ := hc
    rw [mem_range] at hn
    simp only [Int.ofNat_eq_natCast]
    omega

/-- What holds of the chunk descriptors, the chunk cache and the counter. -/
structure ChunkStates (cfg : ClientConfig) (s : Client) : Prop where
  unique : ∀ i < cfg.maxchunkbufs, ∀ j < cfg.maxchunkbufs, (s.chunkBuffer i).state ≠ .empty →
    (s.chunkBuffer j).state ≠ .empty →
    (s.chunkBuffer i).thischunk = (s.chunkBuffer j).thischunk → i = j
  /-- A chunk is seen if it is in a filling or dubious buffer, or done. -/
  seen : ∀ c, (s.chunks c).seen = true ↔ (∃ i < cfg.maxchunkbufs, ((s.chunkBuffer i).state = .filling ∨
      (s.chunkBuffer i).state = .dubious) ∧ (s.chunkBuffer i).thischunk = c) ∨
      (s.chunks c).done = true
  done : ∀ c, (s.chunks c).done = true → (s.chunks c).seen = true
  /-- The counter is the number of filling and dubious buffers. -/
  inprogress : s.inprogress = ((Finset.range cfg.maxchunkbufs).filter fun i =>
    (s.chunkBuffer i).state = .filling ∨ (s.chunkBuffer i).state = .dubious).card

theorem ClientInv.chunkStates {s : Client} (h : ClientInv cfg Good s) : ChunkStates cfg s := by
  have hseen : ∀ c, (s.chunks c).seen = true ↔ (∃ i < cfg.maxchunkbufs, ((s.chunkBuffer i).state = .filling ∨
        (s.chunkBuffer i).state = .dubious) ∧ (s.chunkBuffer i).thischunk = c) ∨
        (s.chunks c).done = true := by
    intro c
    rw [h.seen c, or_comm]
    simp only [Client.InBuffer, inProgress_eq_true]
  constructor
  · exact h.unique
  · exact hseen
  · intro c hdone
    exact (hseen c).mpr (Or.inr hdone)
  · rw [h.inprogress, Nat.count_eq_card_filter_range]
    simp only [inProgress_eq_true]

/-- In the step from `s` to `s'` the chunk has been tossed out of its buffer. -/
def Evicted (cfg : ClientConfig) (s s' : Client) (d : Int) : Prop :=
  (∃ i < cfg.maxchunkbufs, (s.chunkBuffer i).state = .dubious ∧ (s.chunkBuffer i).thischunk = d) ∧
  (s'.chunks d).done = false ∧ ∀ i, ¬s'.InBuffer cfg i d

/-- A chunk is not seen, and it can be requested at any time, or it has been requested in the same step. -/
def RequestableAgain (cfg : ClientConfig) (s s' : Client) (d : Int) : Prop :=
  (s'.chunks d).seen = false ∧ ((∀ curtime, requestRedoTime cfg (s'.chunks d) curtime = true) ∨ Asked s s' d)

theorem requestableAgain_of_evicted {s s' : Client} (h : ClientInv cfg Good s)
    (h' : ClientInv cfg Good s') (hsince : Since s s') {d : Int} (hd : Evicted cfg s s' d) :
    RequestableAgain cfg s s' d := by
  obtain ⟨⟨i, hi, hst, hthis⟩, hdone, hnot⟩ := hd
  have hseen : (s.chunks d).seen = true := (h.seen d).mpr (Or.inr ⟨i, hi, by rw [hst]; rfl, hthis⟩)
  have hunseen : (s'.chunks d).seen = false := by
    rw [← Bool.not_eq_true, h'.seen d, hdone]
    intro hor
    obtain ⟨j, hj⟩ := hor.resolve_left (by decide)
    exact hnot j hj
  refine ⟨hunseen, (hsince.evicted d hseen hunseen).imp_left fun hzero => ?_⟩
  intro curtime
  simp only [requestRedoTime, hzero, decide_true, Bool.true_or]

/-- The packets of a run do not run into the client's assertions. -/
def PacketsFit (cfg : ClientConfig) (s : Client) (e : ClientEvent) : Prop :=
  BlocksFit cfg s e ∧ RequestsFit cfg s e

def twoBlockFile : ClientConfig where
  sizes := { chunkSize := 1024, blockSize := 1024, totalChunks := 1, totalBlocks := 2,
             lastChunkSize := 2, lastBlockSize := 0 }
  maxchunkbufs := 1
  maxreadahead := MAXREADAHEAD
  maxinprogress := MAXINPROGRESS
  redodelay := 1000000
  idletimer := 3
  servertimo := 0
  serverip := 0
  clientip := 1
  chunkRequestList := [0]

/-- What a new buffer may hold. -/
def newBuffer : ChunkBuffer where
  thischunk := 0
  state := .empty
  blockcount := 0
  blockmap := ∅
  blocks := fun _ _ => 0

/-- A packet from the network, while the writer does nothing. -/
def fromNet (msg : Msg) : ClientEvent := ⟨.packet (mkPacket PKTTYPE_REQUEST 2 msg), []⟩

theorem joined_twoBlockFile : twoBlockFile.Joined := by
  constructor
  · exact ⟨1024, 1024, 2048, by decide +kernel⟩
  · exact List.Perm.refl _

/-- A packet that has passed `PacketValid`, or no packet. -/
def Accepted (cfg : ClientConfig) (e : ClientEvent) : Prop :=
  match e.what with
  | .packet p => packetValid p cfg.sizes.totalChunks = true
  | _ => True

/-- A block has been received in a run, with these data. -/
def Received (cfg : ClientConfig) (es : List ClientEvent) (chunk : Int) (block : Nat) (data : BlockBuf) : Prop :=
  ∃ e ∈ es, ∃ p buf, e.what = .packet p ∧ packetValid p cfg.sizes.totalChunks = true ∧
    p.msg = .block chunk block buf ∧
    ∀ size, blockSize cfg.sizes chunk block = some size → ∀ q : Nat, q < size → data q = buf q

/-- A buffer has received every block of its chunk, and no other. -/
def Complete (cfg : ClientConfig) (es : List ClientEvent) (b : ChunkBuffer) : Prop :=
  ∃ csize : Int, chunkSize cfg.sizes b.thischunk = some csize ∧ (∀ k ∈ b.blockmap, k < csize) ∧
    ∀ k : Nat, k < csize → k ∈ b.blockmap ∧ Received cfg es b.thischunk k (b.blocks k)

theorem ChunkBuffer.Ok.isComplete {es : List ClientEvent} {b : ChunkBuffer}
    (h : b.Ok cfg (Received cfg es)) (hcount : b.blockcount = 0) : Complete cfg es b := by
  obtain ⟨csize, hsize, hlt, -⟩ := h.count
  refine ⟨csize, hsize, ?_, ?_⟩
  · intro k hk
    exact_mod_cast hlt k hk
  · intro k hk
    have hmem := h.complete hcount hsize hk
    exact ⟨hmem, h.good k hmem⟩

theorem goodEvent_received {es : List ClientEvent} {e : ClientEvent} (he : e ∈ es) :
    GoodEvent cfg (Received cfg es) e := by
  unfold GoodEvent
  cases hwhat : e.what with
  | packet p =>
    intro hvalid
    unfold GoodPacket
    cases hmsg : p.msg with
    | block chunk block buf =>
      dsimp only
      intro _ old size hsize
      have hrange := inRange_of_packetValid hvalid
      rw [hmsg] at hrange
      simp only [Msg.inRange, Bool.not_eq_true', Bool.or_eq_false_iff, decide_eq_false_iff_not,
        not_lt, not_le] at hrange
      have hblock : (block.toNat : Int) = block := Int.toNat_of_nonneg hrange.1.2
      refine ⟨e, he, p, buf, hwhat, hvalid, ?_, ?_⟩
      · rw [hblock]
        exact hmsg
      · intro size' hsize' q hq
        rw [hblock, hsize, Option.some.injEq] at hsize'
        subst hsize'
        exact if_pos hq
    | _ => trivial
  | _ => trivial

end Emulab.Frisbee
