import Emulab.Frisbee.ClientInv

/-! # The requests of the client

  Stamping a chunk and requesting blocks keep the invariant, and no
  assertion fails. A chunk that is no longer seen keeps the stamp zero until
  it is requested again.
-/

namespace Emulab.Frisbee

open MachineInt Thread BitMap List Option

variable {cfg : ClientConfig} {Good : Int → Nat → BlockBuf → Prop} {m : Prop}

/-! ## Section 1: What requests rely on -/

/-- What the options and the server's reply give a client. -/
structure ClientConfig.WellFormed (cfg : ClientConfig) : Prop where
  sizes : cfg.sizes.WellFormed
  requestList : ∀ c ∈ cfg.chunkRequestList, 0 ≤ c ∧ c < cfg.sizes.totalChunks

/-- A packet requests blocks of chunk `d`. -/
def Packet.AsksFor (p : Packet) (d : Int) : Prop :=
  match p.msg with
  | .request chunk _ _ => chunk = d
  | .prequest chunk _ _ => chunk = d
  | _ => False

/-- A request for blocks of chunk `d` has been sent since `before`. -/
def Asked (before s : Client) (d : Int) : Prop :=
  ∃ p ∈ s.sent.drop before.sent.length, p.AsksFor d

/-- What a program of the receiver leaves behind when it is started in `before`:
    a chunk that is no longer seen can be requested. -/
structure Since (before s : Client) : Prop where
  sent : before.sent <+: s.sent
  done : ∀ d, (before.chunks d).done = true → (s.chunks d).done = true
  /-- There is no delay for the request, until it is made. -/
  evicted : ∀ d, (before.chunks d).seen = true → (s.chunks d).seen = false →
    (s.chunks d).lastreq = 0 ∨ Asked before s d

/-- Stamping the chunk does not delay a request for a chunk no longer seen. -/
def Stampable (before s : Client) (c : Int) : Prop :=
  (s.chunks c).seen = true ∨ (before.chunks c).seen = false ∨ Asked before s c

theorem Since.refl (s : Client) : Since s s := by
  constructor
  · exact prefix_refl _
  · exact fun _ h => h
  · intro d hseen hunseen
    rw [hseen] at hunseen
    exact absurd hunseen (by decide)

/-- Nothing is stamped as long as the descriptors are the same. -/
theorem Since.congr {before s s' : Client} (h : Since before s)
    (hchunks : s'.chunks = s.chunks) (hsent : s'.sent = s.sent) : Since before s' := by
  constructor
  · rw [hsent]
    exact h.sent
  · rw [hchunks]
    exact h.done
  · unfold Asked
    rw [hchunks, hsent]
    exact h.evicted

theorem Stampable.congr {before s s' : Client} {c : Int} (h : Stampable before s c)
    (hchunks : s'.chunks = s.chunks) (hsent : s'.sent = s.sent) : Stampable before s' c := by
  unfold Stampable Asked at h ⊢
  rw [hchunks, hsent]
  exact h

variable {before s : Client}

theorem Asked.send {d : Int} (hsent : before.sent <+: s.sent) (p : Packet)
    (h : Asked before s d ∨ p.AsksFor d) : Asked before (s.send p) d := by
  have hdrop : (s.send p).sent.drop before.sent.length = s.sent.drop before.sent.length ++ [p] :=
    drop_append_of_le_length hsent.length_le
  unfold Asked
  rw [hdrop]
  rcases h with h | h
  · obtain ⟨q, hq, hask⟩ := h
    exact ⟨q, mem_append_left _ hq, hask⟩
  · exact ⟨p, mem_append_right _ (mem_singleton.mpr rfl), h⟩

theorem Since.send (h : Since before s) (p : Packet) : Since before (s.send p) := by
  constructor
  · exact h.sent.trans (prefix_append _ _)
  · exact h.done
  · intro d hseen hunseen
    refine (h.evicted d hseen hunseen).imp_right fun hask => ?_
    exact Asked.send h.sent p (Or.inl hask)

theorem Since.setChunk {c : Int} {ch : Chunk} (h : Since before s)
    (hdone : (s.chunks c).done = true → ch.done = true)
    (hc : ch.seen = false → ch.lastreq = 0 ∨ (s.chunks c).seen = false ∧
      (ch.lastreq = (s.chunks c).lastreq ∨ Stampable before s c)) : Since before (s.setChunk c ch) := by
  constructor
  · exact h.sent
  · intro d hd
    by_cases hdc : d = c
    · subst hdc
      simp only [Client.setChunk, if_true]
      exact hdone (h.done d hd)
    · simp only [Client.setChunk, if_neg hdc]
      exact h.done d hd
  · intro d hd hunseen
    by_cases hdc : d = c
    · subst hdc
      simp only [Client.setChunk, if_true] at hunseen ⊢
      rcases hc hunseen with hzero | ⟨hunseen', heq | hseen | hbefore | hask⟩
      · exact Or.inl hzero
      · rw [heq]
        exact h.evicted d hd hunseen'
      · rw [hseen] at hunseen'
        exact absurd hunseen' (by decide)
      · rw [hd] at hbefore
        exact absurd hbefore (by decide)
      · exact Or.inr hask
    · simp only [Client.setChunk, if_neg hdc] at hunseen ⊢
      exact h.evicted d hd hunseen

theorem Stampable.setChunk {c : Int} {ch : Chunk}
    (h : Stampable before s c) (hseen : ch.seen = (s.chunks c).seen) : Stampable before (s.setChunk c ch) c := by
  have hself : (s.setChunk c ch).chunks c = ch := if_pos rfl
  unfold Stampable at h ⊢
  rw [hself, hseen]
  exact h

/-- A property that releases keep. -/
def ReleaseClosed (P : Client → Prop) : Prop := ∀ s s', Released s s' → P s → P s'

theorem ReleaseClosed.and {P Q : Client → Prop} (hP : ReleaseClosed P) (hQ : ReleaseClosed Q) :
    ReleaseClosed fun s => P s ∧ Q s :=
  fun s s' hr h => ⟨hP s s' hr h.1, hQ s s' hr h.2⟩

theorem closed_since (before : Client) : ReleaseClosed (Since before) :=
  fun _ _ hr h => h.congr hr.chunks hr.sent

theorem closed_stampable (before : Client) (c : Int) : ReleaseClosed fun s => Stampable before s c :=
  fun _ _ hr h => h.congr hr.chunks hr.sent

variable {P : Client → Prop}

theorem ensures_yield_closed (hP : ReleaseClosed P) :
    Ensures m (fun s => ClientInv cfg Good s ∧ P s) (yield (envStep cfg)) fun _ s => ClientInv cfg Good s ∧ P s :=
  ensures_yield (stable_of_released hP)

/-! ## Section 2: Stamps -/

theorem gettimeofday_ensures (hP : ReleaseClosed P) :
    Ensures m (fun s => ClientInv cfg Good s ∧ P s) (gettimeofday cfg) fun _ s => ClientInv cfg Good s ∧ P s :=
  (ensures_yield_closed hP).bind fun _ => ensures_read.post fun _ _ h => h.1

theorem stampChunk_ensures (before : Client) (chunk : Int) :
    Ensures m (fun s => ClientInv cfg Good s ∧ Since before s ∧ Stampable before s chunk)
      (stampChunk cfg chunk) fun _ s => ClientInv cfg Good s ∧ Since before s ∧ Stampable before s chunk := by
  unfold stampChunk
  apply (gettimeofday_ensures ((closed_since before).and (closed_stampable before chunk))).bind
  intro tv
  apply Ensures.bind (R := fun _ s =>
    ClientInv cfg Good s ∧ Since before s ∧ Stampable before s chunk)
  · apply ensures_update
    intro s h
    obtain ⟨hinv, hsince, hstamp⟩ := h
    exact ⟨hinv.setChunk chunk _ rfl rfl, hsince.setChunk id fun hunseen => Or.inr ⟨hunseen, Or.inr hstamp⟩, hstamp.setChunk rfl⟩
  · intro _
    exact ensures_pure fun s h => h

theorem findInProgress_ensures (hP : ReleaseClosed P) (chunk : Int)
    {l : List Nat} (hl : ∀ i ∈ l, i < cfg.maxchunkbufs) :
    Ensures m (fun s => ClientInv cfg Good s ∧ P s) (findInProgress cfg chunk l)
      fun found s => (ClientInv cfg Good s ∧ P s) ∧ ∀ i ∈ found, s.InBuffer cfg i chunk := by
  induction l with
  | nil => exact ensures_pure fun s h => ⟨h, by simp⟩
  | cons i rest ih =>
    unfold findInProgress
    apply (ensures_yield_closed hP).bind
    intro _
    apply ensures_read.bind
    intro b
    split
    · rename_i hb
      apply ensures_pure
      intro s h
      obtain ⟨h, rfl⟩ := h
      refine ⟨h, ?_⟩
      intro j hj
      obtain rfl : i = j := by simpa using hj
      exact ⟨hl i mem_cons_self, hb.2, hb.1⟩
    · exact (ih fun j hj => hl j (mem_cons_of_mem _ hj)).pre fun s h => h.1

/-- A stamp for a request does not run into an assertion. -/
def StampOk (cfg : ClientConfig) (m : Prop) (s : Client) (chunk block count : Int) : Prop :=
  m ∨ cfg.redodelay = 0 ∨ (s.chunks chunk).done = true ∨ (s.chunks chunk).seen = false ∨
    block = 0 ∧ chunkSize cfg.sizes chunk = some count ∨
    0 ≤ block ∧ 0 < count ∧ block + count ≤ 1024

theorem requestsWhole_ensures {chunk block count csize : Int} (hsize : chunkSize cfg.sizes chunk = some csize) :
    Ensures m P (requestsWhole cfg chunk block count)
      fun whole s => P s ∧ (whole = true ↔ block = 0 ∧ count = csize) := by
  unfold requestsWhole
  split
  · rename_i hblock
    apply (ensures_need (Or.inr ⟨csize, hsize⟩)).bind
    intro n
    apply ensures_pure
    intro s h
    obtain ⟨hP, hn⟩ := h
    obtain rfl : csize = n := by
      rw [hsize] at hn
      exact some.inj hn
    exact ⟨hP, by simp [hblock]⟩
  · rename_i hblock
    exact ensures_pure fun s hP => ⟨hP, by simp [hblock]⟩

/-- Noting a request keeps the invariant. -/
theorem requestStamp_ensures (before : Client) {chunk csize : Int} (block count : Int)
    (gotblock : Bool) (hsize : chunkSize cfg.sizes chunk = some csize) :
    Ensures m (fun s => ClientInv cfg Good s ∧ (Since before s ∧ Stampable before s chunk) ∧
        StampOk cfg m s chunk block count)
      (requestStamp cfg chunk block count gotblock)
      fun _ s => ClientInv cfg Good s ∧ Since before s ∧ Stampable before s chunk := by
  have hstamp : Ensures m (fun s => ClientInv cfg Good s ∧ Since before s ∧ Stampable before s chunk)
      (stampChunk cfg chunk)
      fun _ s => ClientInv cfg Good s ∧ Since before s ∧ Stampable before s chunk :=
    stampChunk_ensures before chunk
  unfold requestStamp
  split
  · exact ensures_pure fun s h => ⟨h.1, h.2.1⟩
  rename_i hdelay
  apply ensures_read.bind
  intro c
  split
  · exact ensures_pure fun s h => ⟨h.1.1, h.1.2.1⟩
  rename_i hdone
  apply (requestsWhole_ensures hsize).bind
  intro whole
  split
  · exact hstamp.pre fun s h => ⟨h.1.1.1, h.1.1.2.1⟩
  rename_i hwhole
  split
  · exact hstamp.pre fun s h => ⟨h.1.1.1, h.1.1.2.1⟩
  rename_i hseen
  -- this is a partial request for a chunk in progress: only here blocks are counted
  apply ensures_of_pre (φ := m ∨ 0 ≤ block ∧ 0 < count ∧ block + count ≤ 1024)
  · intro s h
    obtain ⟨⟨⟨-, -, hok⟩, rfl⟩, hiff⟩ := h
    rcases hok with hok | hok | hok | hok | hok | hok
    · exact Or.inl hok
    · exact absurd hok hdelay
    · exact absurd hok hdone
    · rw [hok] at hseen
      exact absurd rfl hseen
    · rw [hsize, Option.some.injEq] at hok
      exact absurd (hiff.mpr ⟨hok.1, hok.2.symm⟩) hwhole
    · exact Or.inr hok
  intro hrange
  apply Ensures.bind
  · apply (findInProgress_ensures ((closed_since before).and (closed_stampable before chunk)) chunk
      (fun i hi => mem_range.mp hi)).pre
    exact fun s h => ⟨h.1.1.1, h.1.1.2.1⟩
  intro found
  cases found with
  | none => exact ensures_pure fun s h => h.1
  | some i =>
    apply ensures_read.bind
    intro b
    apply (ensures_need (hrange.imp_right fun hr =>
      ⟨_, blockMapIsAlloc_spec b.blockmap hr.1 hr.2.1 hr.2.2⟩)).bind
    intro got
    split
    · exact ensures_pure fun s h => h.1.1.1
    split
    · apply Ensures.bind (R := fun _ s =>
        ClientInv cfg Good s ∧ Since before s ∧ Stampable before s chunk)
      · apply ensures_update
        intro s h
        obtain ⟨⟨⟨⟨hinv, hsince, hst⟩, hin⟩, -⟩, -⟩ := h
        exact ⟨hinv.promote (hin i rfl), hsince.congr rfl rfl, hst.congr rfl rfl⟩
      · exact fun _ => hstamp
    · exact hstamp.pre fun s h => h.1.1.1

/-! ## Section 3: Requests -/

theorem markOurs_ensures (before : Client) (chunk : Int) :
    Ensures m (fun s => ClientInv cfg Good s ∧ Since before s) (markOurs chunk)
      fun _ s => ClientInv cfg Good s ∧ Since before s := by
  apply ensures_update
  intro s h
  exact ⟨h.1.setChunk chunk _ rfl rfl, h.2.setChunk id fun hunseen => Or.inr ⟨hunseen, Or.inl rfl⟩⟩

/-- Sending a request for a chunk, so that it may be stamped. -/
theorem send_ensures (before : Client) (p : Packet) {chunk : Int} (hask : p.AsksFor chunk) :
    Ensures m (fun s => ClientInv cfg Good s ∧ Since before s) (update fun s => s.send p : Receiver Unit)
      fun _ s => ClientInv cfg Good s ∧ Since before s ∧ Asked before s chunk := by
  apply ensures_update
  intro s h
  exact ⟨h.1.congr rfl (fun _ => rfl) (fun _ => rfl) rfl rfl rfl, h.2.send _, Asked.send h.2.sent _ (Or.inr hask)⟩

theorem requestMissing_ensures (before : Client) {chunk count : Int} {map : BlockMap}
    {csize : Nat} (hsize : chunkSize cfg.sizes chunk = some (csize : Int))
    (hle : csize ≤ 1024) (hmap : ∀ k ∈ map, k < csize) (hcount : count + map.card = csize) :
    Ensures m (fun s => ClientInv cfg Good s ∧ Since before s)
      (requestMissing cfg chunk map count) fun _ s => ClientInv cfg Good s ∧ Since before s := by
  obtain ⟨missing, hmissing, hmem⟩ := missingBlocks_spec map hle
  unfold requestMissing
  apply (ensures_need (Or.inr ⟨_, hsize⟩)).bind
  intro n
  apply ensures_read.bind
  intro c
  apply ensures_of_pre (φ := (csize : Int) = n)
  · intro s h
    have hn := h.1.2
    rw [hsize] at hn
    exact some.inj hn
  intro hn
  rw [hn] at hmissing hsize hcount
  apply (ensures_need (Or.inr ⟨missing, hmissing⟩)).bind
  intro missing'
  apply ensures_of_pre (φ := missing = missing')
  · intro s h
    have hm' := h.2
    rw [hmissing] at hm'
    exact some.inj hm'
  intro hm'
  subst hm'
  apply Ensures.bind
  · apply (send_ensures before (mkPacket PKTTYPE_REQUEST cfg.clientip
      (.prequest chunk (if c.ours then 1 else 0) missing)) rfl).pre
    exact fun s h => h.1.1.1
  intro _
  have halloc : blockMapIsAlloc missing 0 MAXCHUNKSIZE = some missing.card := by
    rw [blockMapIsAlloc_spec missing (by omega) (by decide) (by decide), Int.toNat_natCast,
      Int.toNat_zero, countFrom_all]
  apply (ensures_need (Or.inr ⟨_, halloc⟩)).bind
  intro asked
  apply Ensures.bind
  · apply ensures_require
    right
    intro s h
    have hasked := h.2
    rw [halloc, Option.some.injEq] at hasked
    have hcard := card_missingBlocks hmap hmem
    simp only [decide_eq_true_eq]
    omega
  intro _
  apply Ensures.bind
  · apply (requestStamp_ensures before 0 n false hsize).pre
    intro s h
    obtain ⟨⟨⟨hinv, hsince, hask⟩, -⟩, -⟩ := h
    exact ⟨hinv, ⟨hsince, Or.inr (Or.inr hask)⟩, Or.inr (Or.inr (Or.inr (Or.inr (Or.inl ⟨rfl, hsize⟩))))⟩
  intro _
  exact (markOurs_ensures before chunk).pre fun s h => ⟨h.1, h.2.1⟩

theorem requestRange_ensures (before : Client) {chunk csize : Int}
    (hsize : chunkSize cfg.sizes chunk = some csize) (hpos : 0 ≤ csize) (hle : csize ≤ 1024) :
    Ensures m (fun s => ClientInv cfg Good s ∧ Since before s)
      (requestRange cfg chunk 0 csize) fun _ s => ClientInv cfg Good s ∧ Since before s := by
  unfold requestRange
  apply ensures_read.bind
  intro c
  split
  · -- nothing has been received of the chunk
    apply (requestsWhole_ensures hsize).bind
    intro whole
    apply ensures_of_pre (φ := whole = true)
    · exact fun s h => h.2.mpr ⟨rfl, rfl⟩
    intro hwhole
    subst hwhole
    apply (ensures_need (Or.inr ⟨∅, rfl⟩)).bind
    intro tmap
    apply ensures_of_pre (φ := ∅ = tmap)
    · exact fun s h => some.inj h.2
    intro htmap
    subst htmap
    have hcsize : csize = (csize.toNat : Int) := (Int.toNat_of_nonneg hpos).symm
    have hsize' : chunkSize cfg.sizes chunk = some (csize.toNat : Int) := by
      rw [← hcsize]
      exact hsize
    apply (requestMissing_ensures before hsize' ?_ ?_ ?_).pre
    · exact fun s h => h.1.1.1
    · omega
    · exact fun k hk => absurd hk (not_mem_empty k)
    · rw [card_empty]
      omega
  · apply Ensures.bind
    · apply (send_ensures before (mkPacket PKTTYPE_REQUEST cfg.clientip (.request chunk 0 csize)) rfl).pre
      exact fun s h => h.1
    intro _
    apply Ensures.bind
    · apply (requestStamp_ensures before 0 csize false hsize).pre
      intro s h
      exact ⟨h.1, ⟨h.2.1, Or.inr (Or.inr h.2.2)⟩, Or.inr (Or.inr (Or.inr (Or.inr (Or.inl ⟨rfl, hsize⟩))))⟩
    intro _
    exact (markOurs_ensures before chunk).pre fun s h => ⟨h.1, h.2.1⟩

theorem requestUnfinished_ensures (hcfg : cfg.WellFormed) (before : Client) (timedout : Bool)
    (stamp : Nat) {i : Nat} (hi : i < cfg.maxchunkbufs) {b : ChunkBuffer} (hb : b.Ok cfg Good) :
    Ensures m (fun s => ClientInv cfg Good s ∧ Since before s)
      (requestUnfinished cfg timedout stamp i b) fun _ s => ClientInv cfg Good s ∧ Since before s := by
  obtain ⟨csize, hsize, hmap, hcount⟩ := hb.count
  obtain ⟨n, hn, -, hle⟩ := hcfg.sizes.chunkSize_range hb.nonneg hb.lt
  have hcsize : csize ≤ 1024 := by
    rw [hsize, Option.some.injEq] at hn
    omega
  unfold requestUnfinished
  apply ensures_read.bind
  intro c
  split
  · apply Ensures.bind
    · exact (requestMissing_ensures before hsize hcsize hmap hcount).pre fun s h => h.1
    intro _
    apply (ensures_yield_closed (closed_since before)).bind
    intro _
    apply ensures_read.bind
    intro b'
    split
    · rename_i hdubious
      apply ensures_update
      intro s h
      obtain ⟨⟨hinv, hsince⟩, rfl⟩ := h
      exact ⟨hinv.promote ⟨hi, by rw [hdubious]; rfl, rfl⟩, hsince.congr rfl rfl⟩
    · exact ensures_pure fun s h => h.1
  · exact ensures_pure fun s h => h.1

/-- A buffer that was in use is sound, even if the writer has just emptied it. -/
theorem closed_ok (i : Nat) : ReleaseClosed fun s => (s.chunkBuffer i).Ok cfg Good := by
  intro s s' hr hok
  rcases hr.chunkBuffer i with heq | hfull
  · rw [heq]
    exact hok
  · rw [hfull.2]
    exact ⟨hok.nonneg, hok.lt, hok.count, hok.good⟩

theorem requestUnfinishedLoop_ensures (hcfg : cfg.WellFormed) (before : Client) (timedout : Bool)
    (stamp : Nat) {l : List Nat} (hl : ∀ i ∈ l, i < cfg.maxchunkbufs) (emptybufs fillingbufs : Int) :
    Ensures m (fun s => ClientInv cfg Good s ∧ Since before s)
      (requestUnfinishedLoop cfg timedout stamp l emptybufs fillingbufs)
      fun _ s => ClientInv cfg Good s ∧ Since before s := by
  induction l generalizing emptybufs fillingbufs with
  | nil => exact ensures_pure fun s h => h
  | cons i rest ih =>
    have hi := hl i mem_cons_self
    have hrest := ih fun j hj => hl j (mem_cons_of_mem _ hj)
    unfold requestUnfinishedLoop
    apply (ensures_yield_closed (closed_since before)).bind
    intro _
    apply ensures_read.bind
    intro b
    split
    · exact (hrest _ _).pre fun s h => h.1
    rename_i hne
    apply Ensures.bind (R := fun _ s => ClientInv cfg Good s ∧ Since before s ∧ (s.chunkBuffer i).Ok cfg Good)
    · apply (ensures_yield_closed ((closed_since before).and (closed_ok i))).pre
      intro s h
      obtain ⟨⟨hinv, hsince⟩, rfl⟩ := h
      exact ⟨hinv, hsince, hinv.buffers i hi hne⟩
    intro _
    apply ensures_read.bind
    intro b'
    split
    · exact (hrest _ _).pre fun s h => ⟨h.1.1, h.1.2.1⟩
    · apply ensures_of_pre (φ := b'.Ok cfg Good)
      · intro s h
        rw [h.2]
        exact h.1.2.2
      intro hok
      apply Ensures.bind
      · exact (requestUnfinished_ensures hcfg before timedout stamp hi hok).pre
          fun s h => ⟨h.1.1, h.1.2.1⟩
      · exact fun _ => hrest _ _

theorem requestAhead_ensures (hcfg : cfg.WellFormed) (before : Client) (timedout : Bool)
    (stamp : Nat) (k : Int) {l : List Int} (hl : ∀ c ∈ l, 0 ≤ c ∧ c < cfg.sizes.totalChunks) (j : Int) :
    Ensures m (fun s => ClientInv cfg Good s ∧ Since before s)
      (requestAhead cfg timedout stamp k l j) fun _ s => ClientInv cfg Good s ∧ Since before s := by
  induction l generalizing j with
  | nil => exact ensures_pure fun s h => h
  | cons chunk rest ih =>
    obtain ⟨hlo, hhi⟩ := hl chunk mem_cons_self
    have hrest := ih fun c hc => hl c (mem_cons_of_mem _ hc)
    obtain ⟨n, hn, -, hle⟩ := hcfg.sizes.chunkSize_range hlo hhi
    unfold requestAhead
    split
    · apply ensures_read.bind
      intro c
      split
      · exact (hrest _).pre fun s h => h.1
      split
      · apply (ensures_need (Or.inr ⟨_, hn⟩)).bind
        intro csize
        apply ensures_of_pre (φ := chunkSize cfg.sizes chunk = some csize)
        · exact fun s h => h.2
        intro hsize
        have hcsize : (n : Int) = csize := by
          rw [hn] at hsize
          exact some.inj hsize
        apply Ensures.bind
        · exact (requestRange_ensures before hsize (by omega) (by omega)).pre fun s h => h.1.1
        · exact fun _ => hrest _
      · exact (hrest _).pre fun s h => h.1
    · exact ensures_pure fun s h => h

theorem requestChunk_ensures (hcfg : cfg.WellFormed) (before : Client) (timedout : Bool) :
    Ensures m (fun s => ClientInv cfg Good s ∧ Since before s)
      (requestChunk cfg timedout) fun _ s => ClientInv cfg Good s ∧ Since before s := by
  unfold requestChunk
  apply Ensures.bind (R := fun _ s => ClientInv cfg Good s ∧ Since before s)
  · unfold requestTime
    split
    · exact ensures_pure fun s h => h
    · exact gettimeofday_ensures (closed_since before)
  intro stamp
  apply (requestUnfinishedLoop_ensures hcfg before timedout stamp (fun i hi => mem_range.mp hi) 0 0).bind
  intro bufs
  obtain ⟨emptybufs, fillingbufs⟩ := bufs
  dsimp only
  split
  · exact ensures_pure fun s h => h
  · exact requestAhead_ensures hcfg before timedout stamp _ hcfg.requestList 0

end Emulab.Frisbee
