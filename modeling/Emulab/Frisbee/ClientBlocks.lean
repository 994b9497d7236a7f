import Emulab.Frisbee.ClientRequests

/-! # Received blocks

  Inserting a block into the chunk cache keeps the invariant, and no
  assertion fails, if the block is one of its chunk or is dropped.
-/

namespace Emulab.Frisbee

open MachineInt Thread BitMap Option

variable {cfg : ClientConfig} {Good : Int → Nat → BlockBuf → Prop} {m : Prop}

/-! ## Section 1: Updates -/

variable {before s : Client}

theorem Since.evict (h : Since before s) (i : Nat) (d : Int) : Since before (evict i d s) :=
  have hchunk : Since before (s.setChunk d { s.chunks d with seen := false, lastreq := 0 }) :=
    h.setChunk id fun _ => Or.inl rfl
  hchunk.congr rfl rfl

theorem Since.startChunk (h : Since before s) (i : Nat) (c csize : Int) : Since before (startChunk i c csize s) :=
  have hchunk : Since before (s.setChunk c { s.chunks c with seen := true }) :=
    h.setChunk id fun hunseen => absurd hunseen (by simp)
  hchunk.congr rfl rfl

theorem Since.releaseChunk (h : Since before s) (i : Nat) (c : Int) : Since before (releaseChunk i c s) :=
  have hchunk : Since before (s.setChunk c { s.chunks c with done := true }) :=
    h.setChunk (fun _ => rfl) fun hunseen => Or.inr ⟨hunseen, Or.inl rfl⟩
  hchunk.congr rfl rfl

/-- The receiver has changed neither the descriptors nor what has been sent. -/
def Same (before s : Client) : Prop := s.chunks = before.chunks ∧ s.sent = before.sent

theorem closed_same (before : Client) : ReleaseClosed (Same before) :=
  fun _ _ hr h => ⟨hr.chunks.trans h.1, hr.sent.trans h.2⟩

theorem Same.since (h : Same before s) : Since before s :=
  (Since.refl before).congr h.1 h.2

/-! ## Section 2: A buffer for the block -/

/-- The free and the dubious buffer that the search has found. -/
def Candidates (cfg : ClientConfig) (free dubious : Option Nat) (s : Client) : Prop :=
  (∀ i ∈ free, i < cfg.maxchunkbufs ∧ (s.chunkBuffer i).state = .empty) ∧
    ∀ i ∈ dubious, i < cfg.maxchunkbufs ∧ (s.chunkBuffer i).state = .dubious

theorem closed_candidates (free dubious : Option Nat) : ReleaseClosed (Candidates cfg free dubious) := by
  intro s s' hr h
  constructor
  · intro i hi
    obtain ⟨hlt, hempty⟩ := h.1 i hi
    refine ⟨hlt, ?_⟩
    rcases hr.chunkBuffer i with heq | hfull
    · rw [heq]
      exact hempty
    · rw [hfull.2]
  · intro i hi
    obtain ⟨hlt, hdubious⟩ := h.2 i hi
    rw [hr.inProgress i (by rw [hdubious]; rfl)]
    exact ⟨hlt, hdubious⟩

/-- The chunk is in progress in none of the buffers. -/
def NotIn (cfg : ClientConfig) (chunk : Int) (l : List Nat) (s : Client) : Prop :=
  ∀ i ∈ l, ¬s.InBuffer cfg i chunk

theorem closed_notIn (chunk : Int) (l : List Nat) : ReleaseClosed (NotIn cfg chunk l) :=
  fun _ _ hr h i hi hin => h i hi ((hr.inBuffer_iff i chunk).mp hin)

/-- What the search has found in the buffers of `l`. -/
def Found (cfg : ClientConfig) (chunk : Int) (l : List Nat)
    (r : Option Nat × Option Nat × Option Nat) (s : Client) : Prop :=
  Candidates cfg r.2.1 r.2.2 s ∧ (∀ i ∈ r.1, s.InBuffer cfg i chunk) ∧ (r.1 = none → NotIn cfg chunk l s)

/-- A further candidate is used if there is none yet. -/
theorem Candidates.or {free dubious : Option Nat} {s : Client} {i : Nat}
    (h : Candidates cfg free dubious s) (hi : i < cfg.maxchunkbufs) :
    ((s.chunkBuffer i).state = .empty → Candidates cfg (free.or (some i)) dubious s) ∧
      ((s.chunkBuffer i).state = .dubious → Candidates cfg free (dubious.or (some i)) s) := by
  constructor
  · intro hst
    refine ⟨?_, h.2⟩
    intro j hj
    cases free with
    | none =>
      obtain rfl : i = j := by simpa using hj
      exact ⟨hi, hst⟩
    | some k => exact h.1 j (by simpa using hj)
  · intro hst
    refine ⟨h.1, ?_⟩
    intro j hj
    cases dubious with
    | none =>
      obtain rfl : i = j := by simpa using hj
      exact ⟨hi, hst⟩
    | some k => exact h.2 j (by simpa using hj)

theorem findChunk_ensures {P : Client → Prop} (hP : ReleaseClosed P) (chunk : Int)
    {scanned l : List Nat} (hl : ∀ i ∈ l, i < cfg.maxchunkbufs) (free dubious : Option Nat) :
    Ensures m (fun s => ClientInv cfg Good s ∧ (P s ∧ Candidates cfg free dubious s ∧ NotIn cfg chunk scanned s))
      (findChunk cfg chunk l free dubious)
      fun r s => (ClientInv cfg Good s ∧ P s) ∧ Found cfg chunk (scanned ++ l) r s := by
  induction l generalizing scanned free dubious with
  | nil =>
    apply ensures_pure
    intro s h
    obtain ⟨hinv, hp, hcand, hnot⟩ := h
    exact ⟨⟨hinv, hp⟩, hcand, by simp, fun _ => by simpa using hnot⟩
  | cons i rest ih =>
    have hi := hl i List.mem_cons_self
    -- the search goes on behind a buffer that does not have the chunk
    have hnext : ∀ free' dubious', Ensures m
        (fun s => (ClientInv cfg Good s ∧ (P s ∧ Candidates cfg free' dubious' s ∧
          NotIn cfg chunk scanned s)) ∧ ¬s.InBuffer cfg i chunk)
        (findChunk cfg chunk rest free' dubious')
        fun r s => (ClientInv cfg Good s ∧ P s) ∧ Found cfg chunk (scanned ++ i :: rest) r s := by
      intro free' dubious'
      have hscan : scanned ++ i :: rest = scanned ++ [i] ++ rest := by simp
      rw [hscan]
      apply (ih (fun j hj => hl j (List.mem_cons_of_mem _ hj)) free' dubious').pre
      intro s h
      obtain ⟨⟨hinv, hp, hcand, hnot⟩, hin⟩ := h
      refine ⟨hinv, hp, hcand, ?_⟩
      intro j hj
      rcases List.mem_append.mp hj with hj | hj
      · exact hnot j hj
      · obtain rfl : j = i := by simpa using hj
        exact hin
    have hfound : Ensures m (fun s => (ClientInv cfg Good s ∧ (P s ∧ Candidates cfg free dubious s ∧
          NotIn cfg chunk scanned s)) ∧ s.InBuffer cfg i chunk)
        (pure (some i, free, dubious) : Receiver (Option Nat × Option Nat × Option Nat))
        fun r s => (ClientInv cfg Good s ∧ P s) ∧ Found cfg chunk (scanned ++ i :: rest) r s := by
      apply ensures_pure
      intro s h
      obtain ⟨⟨hinv, hp, hcand, hnot⟩, hin⟩ := h
      refine ⟨⟨hinv, hp⟩, hcand, ?_, fun hnone => by contradiction⟩
      intro j hj
      obtain rfl : i = j := by simpa using hj
      exact hin
    unfold findChunk
    apply (ensures_yield_closed (hP.and ((closed_candidates free dubious).and (closed_notIn chunk scanned)))).bind
    intro _
    apply ensures_read.bind
    intro b
    cases hst : b.state with
    | full =>
      apply (hnext free dubious).pre
      intro s h
      obtain ⟨h, rfl⟩ := h
      exact ⟨h, fun hin => ne_full_of_inProgress hin.2.1 hst⟩
    | empty =>
      apply (hnext (free.or (some i)) dubious).pre
      intro s h
      obtain ⟨⟨hinv, hp, hcand, hnot⟩, rfl⟩ := h
      exact ⟨⟨hinv, hp, (hcand.or hi).1 hst, hnot⟩,
        fun hin => ne_empty_of_inProgress hin.2.1 hst⟩
    | filling =>
      dsimp only
      split
      · rename_i hthis
        apply hfound.pre
        intro s h
        obtain ⟨h, rfl⟩ := h
        exact ⟨h, hi, by rw [hst]; rfl, hthis⟩
      · rename_i hthis
        apply (hnext free dubious).pre
        intro s h
        obtain ⟨h, rfl⟩ := h
        exact ⟨h, fun hin => hthis hin.2.2⟩
    | dubious =>
      dsimp only
      split
      · rename_i hthis
        apply hfound.pre
        intro s h
        obtain ⟨h, rfl⟩ := h
        exact ⟨h, hi, by rw [hst]; rfl, hthis⟩
      · rename_i hthis
        apply (hnext free (dubious.or (some i))).pre
        intro s h
        obtain ⟨⟨hinv, hp, hcand, hnot⟩, rfl⟩ := h
        exact ⟨⟨hinv, hp, (hcand.or hi).2 hst, hnot⟩, fun hin => hthis hin.2.2⟩

theorem allocFree_ensures (before : Client) {chunk : Int} {csize : Nat} (hlo : 0 ≤ chunk)
    (hhi : chunk < cfg.sizes.totalChunks) (hsize : chunkSize cfg.sizes chunk = some (csize : Int)) (i : Nat) :
    Ensures m (fun s => (ClientInv cfg Good s ∧ Since before s) ∧ (s.chunks chunk).seen = false ∧
        i < cfg.maxchunkbufs ∧ (s.chunkBuffer i).state = .empty)
      (allocFree cfg chunk i)
      fun found s => (ClientInv cfg Good s ∧ Since before s) ∧ found = some i ∧ s.InBuffer cfg i chunk := by
  unfold allocFree
  apply (ensures_need (Or.inr ⟨_, hsize⟩)).bind
  intro n
  apply Ensures.bind (R := fun _ s => (ClientInv cfg Good s ∧ Since before s) ∧ s.InBuffer cfg i chunk)
  · apply ensures_update
    intro s h
    obtain ⟨⟨⟨hinv, hsince⟩, hseen, hi, hempty⟩, hn⟩ := h
    rw [hsize, Option.some.injEq] at hn
    subst hn
    refine ⟨⟨hinv.startChunk hi hempty hseen hlo hhi hsize, hsince.startChunk i chunk csize⟩, hi, ?_, ?_⟩
    · unfold startChunk Client.setBuffer
      simp only [if_true]
      split <;> rfl
    · unfold startChunk Client.setBuffer
      simp
  · exact fun _ => ensures_pure fun s h => ⟨h.1, rfl, h.2⟩

/-- The block is one of its chunk, or there is no room for it. -/
def Fits (cfg : ClientConfig) (chunk block : Int) (s : Client) : Prop :=
  (∃ csize, chunkSize cfg.sizes chunk = some csize ∧ block < csize) ∨
    ∀ i < cfg.maxchunkbufs, (s.chunkBuffer i).state.inProgress = true

theorem closed_fits (chunk block : Int) : ReleaseClosed (Fits cfg chunk block) := by
  intro s s' hr h
  refine h.imp_right fun h i hi => ?_
  rw [hr.inProgress_iff]
  exact h i hi

theorem drop_ensures (before : Client) (chunk : Int) {Q : Option Nat → Client → Prop}
    (hQ : ∀ s, ClientInv cfg Good s → Since before s → Stampable before s chunk → Q none s) :
    Ensures m (fun s => (ClientInv cfg Good s ∧ Same before s) ∧ (s.chunks chunk).seen = false) (do
        update (noRoom chunk)
        pure none : Receiver (Option Nat)) Q := by
  apply Ensures.bind (R := fun _ s => Q none s)
  · apply ensures_update
    intro s h
    obtain ⟨⟨hinv, hsame⟩, hseen⟩ := h
    apply hQ
    · exact hinv.congr rfl (fun _ => rfl) (fun _ => rfl) rfl rfl rfl
    · exact hsame.since.congr rfl rfl
    · right
      left
      rw [← hsame.1]
      exact hseen
  · exact fun _ => ensures_pure fun s h => h

variable {chunk block : Int}

theorem allocBuffer_ensures (before : Client) {csize : Nat} (hlo : 0 ≤ chunk) (hhi : chunk < cfg.sizes.totalChunks)
    (hsize : chunkSize cfg.sizes chunk = some (csize : Int)) (hpos : 0 < csize) (free dubious : Option Nat) :
    Ensures m (fun s => (ClientInv cfg Good s ∧ Same before s ∧ Fits cfg chunk block s) ∧
        Candidates cfg free dubious s ∧ (s.chunks chunk).seen = false)
      (allocBuffer cfg chunk block free dubious)
      fun found s => (ClientInv cfg Good s ∧ Since before s) ∧ (found = none → Stampable before s chunk) ∧
        ∀ i ∈ found, block < csize ∧ s.InBuffer cfg i chunk := by
  -- the block is one of the chunk if some buffer is free
  have hfit : ∀ s i, Fits cfg chunk block s → i < cfg.maxchunkbufs →
      (s.chunkBuffer i).state = .empty → block < csize := by
    intro s i hfits hi hempty
    rcases hfits with ⟨n, hn, hlt⟩ | hall
    · rw [hsize, Option.some.injEq] at hn
      omega
    · have hst := hall i hi
      rw [hempty] at hst
      contradiction
  have hfree : ∀ i, block < csize → Ensures m
      (fun s => (ClientInv cfg Good s ∧ Since before s) ∧ (s.chunks chunk).seen = false ∧
        i < cfg.maxchunkbufs ∧ (s.chunkBuffer i).state = .empty)
      (allocFree cfg chunk i)
      fun found s => (ClientInv cfg Good s ∧ Since before s) ∧ (found = none → Stampable before s chunk) ∧
        ∀ i ∈ found, block < csize ∧ s.InBuffer cfg i chunk := by
    intro i hlt
    apply (allocFree_ensures before hlo hhi hsize i).post
    intro found s h
    obtain ⟨h, rfl, hin⟩ := h
    refine ⟨h, fun hnone => by contradiction, ?_⟩
    intro j hj
    obtain rfl : i = j := by simpa using hj
    exact ⟨hlt, hin⟩
  have hdrop : Ensures m (fun s => (ClientInv cfg Good s ∧ Same before s) ∧ (s.chunks chunk).seen = false) (do
        update (noRoom chunk)
        pure none : Receiver (Option Nat))
      fun found s => (ClientInv cfg Good s ∧ Since before s) ∧ (found = none → Stampable before s chunk) ∧
        ∀ i ∈ found, block < csize ∧ s.InBuffer cfg i chunk :=
    drop_ensures before chunk fun s hinv hsince hstamp =>
      ⟨⟨hinv, hsince⟩, fun _ => hstamp, by simp⟩
  unfold allocBuffer
  apply ensures_read.bind
  intro c
  apply Ensures.bind
  · apply ensures_require
    right
    intro s h
    obtain ⟨⟨-, -, hseen⟩, rfl⟩ := h
    rw [hseen]
    rfl
  intro _
  cases free with
  | some i =>
    apply ensures_of_pre (φ := block < csize)
    · intro s h
      obtain ⟨⟨⟨⟨-, -, hfits⟩, hcand, -⟩, -⟩, -⟩ := h
      exact hfit s i hfits (hcand.1 i rfl).1 (hcand.1 i rfl).2
    intro hlt
    apply (hfree i hlt).pre
    intro s h
    obtain ⟨⟨⟨⟨hinv, hsame, -⟩, hcand, hseen⟩, -⟩, -⟩ := h
    exact ⟨⟨hinv, hsame.since⟩, hseen, hcand.1 i rfl⟩
  | none =>
    cases dubious with
    | none => exact hdrop.pre fun s h => ⟨⟨h.1.1.1.1, h.1.1.1.2.1⟩, h.1.1.2.2⟩
    | some i =>
      dsimp only
      split
      · rename_i hzero
        apply ensures_read.bind
        intro b
        apply ensures_read.bind
        intro d
        -- the dubious chunk is in progress
        apply Ensures.bind (R := fun _ s => ((ClientInv cfg Good s ∧ Same before s) ∧
          (s.chunks chunk).seen = false) ∧ s.InBuffer cfg i b.thischunk ∧ d.seen = true)
        · apply (ensures_require (P := fun s => ((ClientInv cfg Good s ∧ Same before s) ∧
            (s.chunks chunk).seen = false) ∧ s.InBuffer cfg i b.thischunk ∧
            d = s.chunks b.thischunk) ?_).imp
          · intro s h
            obtain ⟨⟨⟨⟨⟨⟨hinv, hsame, -⟩, hcand, hseen⟩, -⟩, -⟩, rfl⟩, rfl⟩ := h
            obtain ⟨hi, hst⟩ := hcand.2 i rfl
            exact ⟨⟨⟨hinv, hsame⟩, hseen⟩, ⟨hi, by rw [hst]; rfl, rfl⟩, rfl⟩
          · intro _ s h
            obtain ⟨⟨h, hin, rfl⟩, -⟩ := h
            exact ⟨h, hin, (h.1.1.inBuffer hin).2.1⟩
          · right
            intro s h
            obtain ⟨h, hin, rfl⟩ := h
            rw [h.1.1.notDone i _ hin]
            rfl
        intro _
        apply Ensures.bind (ensures_require (Or.inr fun s h => h.2.2))
        intro _
        apply Ensures.bind (R := fun _ s => (ClientInv cfg Good s ∧ Since before s) ∧
          (s.chunks chunk).seen = false ∧ i < cfg.maxchunkbufs ∧
          (s.chunkBuffer i).state = .empty)
        · apply ensures_update
          intro s h
          obtain ⟨⟨⟨⟨hinv, hsame⟩, hseen⟩, hin, -⟩, -⟩ := h
          refine ⟨⟨hinv.evict hin, hsame.since.evict i _⟩, ?_, hin.1, ?_⟩
          · unfold evict Client.setState Client.setBuffer Client.setChunk
            simp only
            split
            · rfl
            · exact hseen
          · simp [evict, Client.setState, Client.setBuffer]
        · exact fun _ => hfree i (by omega)
      · exact hdrop.pre fun s h => ⟨⟨h.1.1.1.1, h.1.1.1.2.1⟩, h.1.1.2.2⟩

/-! ## Section 3: Inserting the block -/

/-- The data of a block are good, however much of the block is used. -/
def GoodData (cfg : ClientConfig) (Good : Int → Nat → BlockBuf → Prop) (chunk block : Int)
    (buf : BlockBuf) : Prop :=
  ∀ (old : BlockBuf) (size : Int), blockSize cfg.sizes chunk block = some size →
    Good chunk block.toNat fun p => if (p : Int) < size then buf p else old p

theorem blockMapAlloc_int (map : BlockMap) {block : Int} (hlo : 0 ≤ block) (hhi : block < 1024) :
    ∃ map', blockMapAlloc map block = some (decide (block.toNat ∈ map), map') ∧
      ∀ k, k ∈ map' ↔ k ∈ map ∨ k = block.toNat := by
  have hlt : block.toNat < 1024 := by omega
  have h := blockMapAlloc_spec map hlt
  rwa [Int.toNat_of_nonneg hlo] at h

theorem blockSize_some (hcfg : cfg.WellFormed) (hchunk : chunk < cfg.sizes.totalChunks) (hblock : block < 1024) :
    ∃ size, blockSize cfg.sizes chunk block = some size := by
  have hsize := hcfg.sizes.blockSize
  unfold blockSize
  rw [if_pos ⟨hchunk, by omega⟩]
  dsimp only
  split
  · exact ⟨_, rfl⟩
  · exact ⟨_, rfl⟩

theorem ChunkBuffer.Ok.insert {b : ChunkBuffer} (h : b.Ok cfg Good) {block size : Int}
    {csize : Nat} (hsize : chunkSize cfg.sizes b.thischunk = some (csize : Int))
    (hlo : 0 ≤ block) (hhi : block < csize) {buf : BlockBuf}
    (hdata : blockSize cfg.sizes b.thischunk block = some size)
    (hgood : GoodData cfg Good b.thischunk block buf) {map : BlockMap}
    (hnew : block.toNat ∉ b.blockmap) (hmap : ∀ k, k ∈ map ↔ k ∈ b.blockmap ∨ k = block.toNat) :
    ChunkBuffer.Ok cfg Good { b with
      blockmap := map, blockcount := b.blockcount - 1,
      blocks := storeBlock b.blocks block.toNat buf size } := by
  obtain ⟨n, hn, hlt, hcount⟩ := h.count
  have hcsize : (csize : Int) = n := by
    rw [hsize] at hn
    exact some.inj hn
  refine ⟨h.nonneg, h.lt, ⟨n, hn, ?_, ?_⟩, ?_⟩
  · intro k hk
    rcases (hmap k).mp hk with hk | rfl
    · exact hlt k hk
    · omega
  · have hcard := card_insert hnew hmap
    simp only
    omega
  · intro k hk
    simp only at hk ⊢
    by_cases hkb : k = block.toNat
    · subst hkb
      simp only [storeBlock, if_true]
      exact hgood _ size hdata
    · simp only [storeBlock, if_neg hkb]
      exact h.good k (((hmap k).mp hk).resolve_right hkb)

theorem insertBlock_ensures (hcfg : cfg.WellFormed) (before : Client)
    {csize : Nat} (hhi : chunk < cfg.sizes.totalChunks)
    (hsize : chunkSize cfg.sizes chunk = some (csize : Int)) (hle : csize ≤ 1024)
    (hblock : 0 ≤ block) (hlt : block < csize) {buf : BlockBuf}
    (hgood : GoodData cfg Good chunk block buf) (i : Nat) :
    Ensures m (fun s => (ClientInv cfg Good s ∧ Since before s) ∧ s.InBuffer cfg i chunk)
      (insertBlock cfg i chunk block buf)
      fun _ s => (ClientInv cfg Good s ∧ Since before s) ∧ (s.chunks chunk).seen = true := by
  unfold insertBlock
  apply ensures_read.bind
  intro b
  apply ensures_of_pre (φ := b.Ok cfg Good ∧ b.state.inProgress = true ∧ b.thischunk = chunk)
  · intro s h
    obtain ⟨⟨⟨hinv, -⟩, hin⟩, rfl⟩ := h
    exact ⟨(hinv.inBuffer hin).1, hin.2⟩
  intro hb
  obtain ⟨hok, hst, rfl⟩ := hb
  obtain ⟨map, halloc, hmap⟩ := blockMapAlloc_int b.blockmap hblock (by omega)
  obtain ⟨size, hdata⟩ := blockSize_some hcfg hhi (by omega : block < 1024)
  apply (ensures_need (Or.inr ⟨_, halloc⟩)).bind
  intro r
  apply ensures_of_pre (φ := r = (decide (block.toNat ∈ b.blockmap), map))
  · intro s h
    have hr := h.2
    rw [halloc] at hr
    exact (some.inj hr).symm
  intro hr
  subst hr
  dsimp only
  split
  · apply ensures_pure
    intro s h
    obtain ⟨⟨⟨hinv, hin⟩, -⟩, -⟩ := h
    exact ⟨hinv, (hinv.1.inBuffer hin).2.1⟩
  rename_i hnew
  have hnew : block.toNat ∉ b.blockmap := by simpa using hnew
  apply (ensures_need (Or.inr ⟨_, hdata⟩)).bind
  intro size'
  apply ensures_of_pre (φ := size = size')
  · intro s h
    have hs := h.2
    rw [hdata] at hs
    exact some.inj hs
  intro hs
  subst hs
  apply Ensures.bind (R := fun _ s => (ClientInv cfg Good s ∧ Since before s) ∧
    s.InBuffer cfg i b.thischunk ∧ (s.chunkBuffer i).blockcount = b.blockcount - 1)
  · apply ensures_update
    intro s h
    obtain ⟨⟨⟨⟨⟨hinv, hsince⟩, hin⟩, -⟩, -⟩, -⟩ := h
    refine ⟨⟨hinv.setBuffer hin hst (hok.insert hsize hblock hlt hdata hgood hnew hmap) rfl,
      hsince.congr rfl rfl⟩, ⟨hin.1, ?_, ?_⟩, ?_⟩
    · simpa [Client.setBuffer] using hst
    · simp [Client.setBuffer]
    · simp [Client.setBuffer]
  intro _
  split
  · -- the chunk is complete
    rename_i hzero
    apply Ensures.bind (ensures_require (Or.inr fun _ _ => by simp))
    intro _
    apply Ensures.bind (R := fun _ s => (ClientInv cfg Good s ∧ Since before s) ∧
      (s.chunks b.thischunk).done = true)
    · apply ensures_update
      intro s h
      obtain ⟨⟨⟨hinv, hsince⟩, hin, hcount⟩, -⟩ := h
      refine ⟨⟨hinv.releaseChunk hin (hcount.trans hzero), hsince.releaseChunk i _⟩, ?_⟩
      simp [releaseChunk, Client.setState, Client.setBuffer, Client.setChunk]
    intro _
    apply Ensures.bind (R := fun _ s => (ClientInv cfg Good s ∧ Since before s) ∧
      (s.chunks b.thischunk).done = true)
    · apply ensures_start
      intro s₀ h₀
      apply ((requestChunk_ensures hcfg before false).and (requestChunk_ensures hcfg s₀ false)).imp
      · intro s hs
        subst hs
        exact ⟨h₀.1, h₀.1.1, Since.refl s⟩
      · intro _ s h
        exact ⟨h.1, h.2.2.done _ h₀.2⟩
    · intro _
      apply ensures_pure
      intro s h
      exact ⟨h.1, (h.1.1.seen _).mpr (Or.inl h.2)⟩
  · apply ensures_pure
    intro s h
    exact ⟨h.1, (h.1.1.inBuffer h.2.1).2.1⟩

/-- The condition on a block: it is one of its chunk, or the chunk is done, or there is no room for it. -/
def BlockOk (cfg : ClientConfig) (chunk block : Int) (s : Client) : Prop :=
  (∃ csize, chunkSize cfg.sizes chunk = some csize ∧ block < csize) ∨
    (s.chunks chunk).done = true ∨ (s.chunks chunk).seen = false ∧
      ∀ i < cfg.maxchunkbufs, (s.chunkBuffer i).state.inProgress = true

theorem gotBlock_ensures (hcfg : cfg.WellFormed) (before : Client)
    (hlo : 0 ≤ chunk) (hhi : chunk < cfg.sizes.totalChunks) (hblock : 0 ≤ block) {buf : BlockBuf}
    (hgood : (∃ csize, chunkSize cfg.sizes chunk = some csize ∧ block < csize) →
      GoodData cfg Good chunk block buf) :
    Ensures m (fun s => ClientInv cfg Good s ∧ Same before s ∧ BlockOk cfg chunk block s)
      (gotBlock cfg chunk block buf)
      fun _ s => ClientInv cfg Good s ∧ Since before s ∧ Stampable before s chunk := by
  obtain ⟨csize, hsize, hpos, hle⟩ := hcfg.sizes.chunkSize_range hlo hhi
  unfold gotBlock
  apply ensures_read.bind
  intro c
  split
  · rename_i hdone
    apply Ensures.bind
    · apply ensures_require
      right
      intro s h
      obtain ⟨⟨hinv, -⟩, rfl⟩ := h
      exact (hinv.seen chunk).mpr (Or.inl hdone)
    intro _
    apply ensures_pure
    intro s h
    obtain ⟨⟨⟨hinv, hsame, -⟩, rfl⟩, hseen⟩ := h
    exact ⟨hinv, hsame.since, Or.inl hseen⟩
  rename_i hdone
  have hclosed : ReleaseClosed fun s => (Same before s ∧ (s.chunks chunk).done = false) ∧
      ((s.chunks chunk).seen = false → Fits cfg chunk block s) ∧
      ((s.chunks chunk).seen = true → block < csize) := by
    intro s s' hr h
    obtain ⟨⟨hsame, hnot⟩, hfits, hin⟩ := h
    refine ⟨⟨closed_same before s s' hr hsame, ?_⟩, ?_, ?_⟩
    · rw [hr.chunks]
      exact hnot
    · intro hseen
      rw [hr.chunks] at hseen
      exact closed_fits chunk block s s' hr (hfits hseen)
    · intro hseen
      rw [hr.chunks] at hseen
      exact hin hseen
  apply Ensures.bind
  · have hlt : ∀ i ∈ List.range cfg.maxchunkbufs, i < cfg.maxchunkbufs :=
      fun i hi => List.mem_range.mp hi
    apply (@findChunk_ensures _ _ _ _ hclosed chunk [] _ hlt none none).pre
    intro s h
    obtain ⟨⟨hinv, hsame, hok⟩, rfl⟩ := h
    refine ⟨hinv, ⟨⟨hsame, by simpa using hdone⟩, ?_, ?_⟩, ⟨by simp, by simp⟩, by simp [NotIn]⟩
    · intro _
      rcases hok with hok | hok | hok
      · exact Or.inl hok
      · exact absurd hok hdone
      · exact Or.inr hok.2
    · intro hseen
      rcases hok with ⟨n, hn, hlt⟩ | hok | hok
      · rw [hsize, Option.some.injEq] at hn
        omega
      · exact absurd hok hdone
      · rw [hok.1] at hseen
        contradiction
  intro r
  obtain ⟨inbuf, free, dubious⟩ := r
  dsimp only
  apply Ensures.bind (R := fun found s => (ClientInv cfg Good s ∧ Since before s) ∧
    (found = none → Stampable before s chunk) ∧
    ∀ i ∈ found, block < csize ∧ s.InBuffer cfg i chunk)
  · unfold bufferFor
    cases inbuf with
    | some i =>
      apply ensures_pure
      intro s h
      obtain ⟨⟨hinv, ⟨hsame, -⟩, -, hlt⟩, -, hin, -⟩ := h
      have hin := hin i rfl
      refine ⟨⟨hinv, hsame.since⟩, fun hnone => by contradiction, ?_⟩
      intro j hj
      obtain rfl : i = j := by simpa using hj
      exact ⟨hlt (hinv.inBuffer hin).2.1, hin⟩
    | none =>
      apply (allocBuffer_ensures before hlo hhi hsize hpos free dubious).pre
      intro s h
      obtain ⟨⟨hinv, ⟨hsame, hnot⟩, hfits, -⟩, hcand, -, hnotin⟩ := h
      have hseen : (s.chunks chunk).seen = false := by
        rw [← Bool.not_eq_true, hinv.seen chunk, hnot]
        intro hor
        obtain ⟨i, hin⟩ := hor.resolve_left (by decide)
        exact hnotin rfl i (by simpa using hin.1) hin
      exact ⟨⟨hinv, hsame, hfits hseen⟩, hcand, hseen⟩
  intro found
  cases found with
  | none => exact ensures_pure fun s h => ⟨h.1.1, h.1.2, h.2.1 rfl⟩
  | some i =>
    apply ensures_of_pre (φ := block < csize)
    · exact fun s h => (h.2.2 i rfl).1
    intro hlt
    apply ensures_read.bind
    intro c
    apply Ensures.bind
    · apply ensures_require
      right
      intro s h
      obtain ⟨⟨⟨hinv, -⟩, -, hin⟩, rfl⟩ := h
      exact (hinv.inBuffer (hin i rfl).2).2.1
    intro _
    apply (insertBlock_ensures hcfg before hhi hsize hle hblock hlt (hgood ⟨_, hsize, hlt⟩) i).imp
    · intro s h
      obtain ⟨⟨⟨h, -, hin⟩, -⟩, -⟩ := h
      exact ⟨h, (hin i rfl).2⟩
    · intro _ s h
      exact ⟨h.1.1, h.1.2, Or.inl h.2⟩

end Emulab.Frisbee
