import Emulab.Frisbee.Client

/-! # The invariant of the client

  What holds of the chunk descriptors and the chunk cache whenever the
  receiver is not in the middle of an update, and that the writer and each
  update of the receiver keep it.
-/

namespace Emulab.Frisbee

open MachineInt Thread BitMap List

/-! ## Section 1: The invariant -/

section
variable (cfg : ClientConfig) (Good : Int → Nat → BlockBuf → Prop)

/-- A buffer counts the blocks it has not received, and has received only
    blocks of its chunk, with good data. -/
structure ChunkBuffer.Ok (b : ChunkBuffer) : Prop where
  nonneg : 0 ≤ b.thischunk
  lt : b.thischunk < cfg.sizes.totalChunks
  /-- The blocks received, and their number. -/
  count : ∃ csize : Nat, chunkSize cfg.sizes b.thischunk = some (csize : Int) ∧
    (∀ k ∈ b.blockmap, k < csize) ∧ b.blockcount + b.blockmap.card = csize
  good : ∀ k ∈ b.blockmap, Good b.thischunk k (b.blocks k)

/-- A chunk is in progress in buffer `i`. -/
def Client.InBuffer (s : Client) (i : Nat) (chunk : Int) : Prop :=
  i < cfg.maxchunkbufs ∧ (s.chunkBuffer i).state.inProgress = true ∧ (s.chunkBuffer i).thischunk = chunk

structure ClientInv (s : Client) : Prop where
  buffers : ∀ i < cfg.maxchunkbufs, (s.chunkBuffer i).state ≠ .empty → (s.chunkBuffer i).Ok cfg Good
  unique : ∀ i < cfg.maxchunkbufs, ∀ j < cfg.maxchunkbufs, (s.chunkBuffer i).state ≠ .empty →
    (s.chunkBuffer j).state ≠ .empty →
    (s.chunkBuffer i).thischunk = (s.chunkBuffer j).thischunk → i = j
  seen : ∀ c, (s.chunks c).seen = true ↔ (s.chunks c).done = true ∨ ∃ i, s.InBuffer cfg i c
  notDone : ∀ i c, s.InBuffer cfg i c → (s.chunks c).done = false
  full : ∀ i < cfg.maxchunkbufs, (s.chunkBuffer i).state = .full →
    (s.chunks (s.chunkBuffer i).thischunk).done = true ∧ (s.chunkBuffer i).blockcount = 0
  /-- The counter of chunks in progress. -/
  inprogress : s.inprogress = Nat.count (fun i => (s.chunkBuffer i).state.inProgress = true) cfg.maxchunkbufs
  /-- What has been handed to the writer is sound, complete and done. -/
  handed : ∀ b ∈ s.handed, b.Ok cfg Good ∧ b.blockcount = 0 ∧ (s.chunks b.thischunk).done = true
  /-- A chunk is handed to the writer once at most. -/
  handedOnce : (s.handed.map (·.thischunk)).Nodup
  writing : ∀ i, s.writer = .write i → i < cfg.maxchunkbufs ∧ (s.chunkBuffer i).state = .full

end

variable {cfg : ClientConfig} {Good : Int → Nat → BlockBuf → Prop}

theorem inProgress_eq_true {st : BufState} : st.inProgress = true ↔ st = .filling ∨ st = .dubious := by
  cases st <;> simp [BufState.inProgress]

theorem ne_empty_of_inProgress {st : BufState} (h : st.inProgress = true) : st ≠ .empty := by
  rcases inProgress_eq_true.mp h with rfl | rfl <;> decide

theorem ne_full_of_inProgress {st : BufState} (h : st.inProgress = true) : st ≠ .full := by
  rcases inProgress_eq_true.mp h with rfl | rfl <;> decide

theorem ChunkBuffer.Ok.complete {b : ChunkBuffer} (h : b.Ok cfg Good) (hcount : b.blockcount = 0)
    {csize : Int} (hsize : chunkSize cfg.sizes b.thischunk = some csize) {k : Nat}
    (hk : (k : Int) < csize) : k ∈ b.blockmap := by
  obtain ⟨n, hn, hlt, hcard⟩ := h.count
  have hcsize : csize = n := by
    rw [hsize] at hn
    exact Option.some.inj hn
  exact mem_of_card_eq hlt (by omega) (by omega : k < n)

/-! ## Section 2: The environment -/

/-- What the environment may do between two steps of the receiver: the writer releases complete chunks. -/
structure Released (s s' : Client) : Prop where
  chunks : s'.chunks = s.chunks
  /-- A full buffer may become empty. -/
  chunkBuffer : ∀ i, s'.chunkBuffer i = s.chunkBuffer i ∨ (s.chunkBuffer i).state = .full ∧
      s'.chunkBuffer i = { s.chunkBuffer i with state := .empty }
  sent : s'.sent = s.sent
  lastnoroomchunk : s'.lastnoroomchunk = s.lastnoroomchunk
  childError : s'.childError = s.childError

theorem Released.refl (s : Client) : Released s s := by
  constructor <;> simp

theorem Released.inProgress {s s' : Client} (h : Released s s') (i : Nat)
    (hi : (s.chunkBuffer i).state.inProgress = true) : s'.chunkBuffer i = s.chunkBuffer i := by
  rcases h.chunkBuffer i with heq | hfull
  · exact heq
  · exact absurd hfull.1 (ne_full_of_inProgress hi)

theorem Released.inProgress_iff {s s' : Client} (h : Released s s') (i : Nat) :
    (s'.chunkBuffer i).state.inProgress = (s.chunkBuffer i).state.inProgress := by
  rcases h.chunkBuffer i with heq | hfull
  · rw [heq]
  · rw [hfull.2, hfull.1]
    rfl

theorem Released.inBuffer_iff {s s' : Client} (h : Released s s') (i : Nat) (c : Int) :
    s'.InBuffer cfg i c ↔ s.InBuffer cfg i c := by
  unfold Client.InBuffer
  rcases h.chunkBuffer i with heq | hfull
  · rw [heq]
  · rw [hfull.2, hfull.1]
    simp [BufState.inProgress]

theorem Released.ne_empty {s s' : Client} (h : Released s s') (i : Nat)
    (hi : (s'.chunkBuffer i).state ≠ .empty) : s'.chunkBuffer i = s.chunkBuffer i := by
  rcases h.chunkBuffer i with heq | hfull
  · exact heq
  · rw [hfull.2] at hi
    exact absurd rfl hi

variable {s : Client}

/-- The receiver relies on every step of the environment being a release. -/
theorem released_envStep (h : ClientInv cfg Good s) (e : EnvStep) : Released s (envStep cfg s e) := by
  cases e with
  | tick usec => constructor <;> simp [envStep]
  | writer =>
    show Released s (writerStep cfg s)
    unfold writerStep
    split
    · constructor <;> simp
    · split_ifs <;> constructor <;> simp
    · rename_i i hw
      constructor <;> try rfl
      intro j
      by_cases hj : j = i
      · subst hj
        right
        exact ⟨(h.writing j hw).2, by simp [Client.setState, Client.setBuffer]⟩
      · left
        simp [Client.setState, Client.setBuffer, hj]
    · exact Released.refl s

/-- A release keeps the invariant, up to where the writer is. -/
theorem ClientInv.released {s s' : Client} (h : ClientInv cfg Good s) (hr : Released s s')
    (hinprogress : s'.inprogress = s.inprogress) (hhanded : s'.handed = s.handed)
    (hwriting : ∀ i, s'.writer = .write i →
      i < cfg.maxchunkbufs ∧ (s'.chunkBuffer i).state = .full) : ClientInv cfg Good s' := by
  constructor
  · intro i hi hne
    have heq := hr.ne_empty i hne
    rw [heq] at hne ⊢
    exact h.buffers i hi hne
  · intro i hi j hj hnei hnej heq
    have hi' := hr.ne_empty i hnei
    have hj' := hr.ne_empty j hnej
    rw [hi'] at hnei heq
    rw [hj'] at hnej heq
    exact h.unique i hi j hj hnei hnej heq
  · intro c
    rw [hr.chunks, h.seen c]
    simp only [hr.inBuffer_iff]
  · intro i c hin
    rw [hr.chunks]
    exact h.notDone i c ((hr.inBuffer_iff i c).mp hin)
  · intro i hi hfull
    have heq := hr.ne_empty i (by rw [hfull]; decide)
    rw [heq] at hfull ⊢
    rw [hr.chunks]
    exact h.full i hi hfull
  · rw [hinprogress, h.inprogress]
    simp only [hr.inProgress_iff]
  · rw [hhanded, hr.chunks]
    exact h.handed
  · rw [hhanded]
    exact h.handedOnce
  · exact hwriting

theorem ClientInv.envStep (h : ClientInv cfg Good s) (e : EnvStep) : ClientInv cfg Good (envStep cfg s e) := by
  have hr := released_envStep h e
  cases e with
  | tick usec => exact h.released hr rfl rfl h.writing
  | writer =>
    show ClientInv cfg Good (writerStep cfg s)
    have hr : Released s (writerStep cfg s) := hr
    unfold writerStep at hr ⊢
    split
    · rename_i hw
      simp only [hw] at hr
      apply h.released hr rfl rfl
      intro i hi
      simp only at hi
      split at hi <;> contradiction
    · rename_i i hw
      simp only [hw] at hr
      split_ifs at hr ⊢ with hlt hfull
      · apply h.released hr rfl rfl
        intro j hj
        obtain rfl : i = j := by simpa using hj
        exact ⟨hlt, hfull⟩
      · exact h.released hr rfl rfl (by simp)
      · exact h.released hr rfl rfl (by simp)
    · rename_i i hw
      simp only [hw] at hr
      exact h.released hr rfl rfl (by simp)
    · exact h

theorem stable_of_released {P : Client → Prop} (hP : ∀ s s', Released s s' → P s → P s') :
    Stable (Frisbee.envStep cfg) fun s => ClientInv cfg Good s ∧ P s := by
  intro s e h
  exact ⟨h.1.envStep e, hP s _ (released_envStep h.1 e) h.2⟩

/-! ## Section 3: Updates of the receiver -/

/-- Updates of what the invariant does not mention keep it. -/
theorem ClientInv.congr {s s' : Client} (h : ClientInv cfg Good s) (hbuffer : s'.chunkBuffer = s.chunkBuffer)
    (hseen : ∀ c, (s'.chunks c).seen = (s.chunks c).seen) (hdone : ∀ c, (s'.chunks c).done = (s.chunks c).done)
    (hinprogress : s'.inprogress = s.inprogress) (hhanded : s'.handed = s.handed)
    (hwriter : s'.writer = s.writer) : ClientInv cfg Good s' := by
  have hin : ∀ i c, s'.InBuffer cfg i c ↔ s.InBuffer cfg i c := by
    intro i c
    unfold Client.InBuffer
    rw [hbuffer]
  constructor
  · rw [hbuffer]
    exact h.buffers
  · rw [hbuffer]
    exact h.unique
  · intro c
    rw [hseen, hdone, h.seen c]
    simp only [hin]
  · intro i c hinb
    rw [hdone]
    exact h.notDone i c ((hin i c).mp hinb)
  · simp only [hbuffer, hdone]
    exact h.full
  · rw [hinprogress, hbuffer]
    exact h.inprogress
  · rw [hhanded]
    simp only [hdone]
    exact h.handed
  · rw [hhanded]
    exact h.handedOnce
  · rw [hwriter, hbuffer]
    exact h.writing

theorem ClientInv.setChunk (h : ClientInv cfg Good s) (chunk : Int) (c : Chunk)
    (hseen : c.seen = (s.chunks chunk).seen) (hdone : c.done = (s.chunks chunk).done) :
    ClientInv cfg Good (s.setChunk chunk c) := by
  apply h.congr <;> try rfl
  · intro d
    unfold Client.setChunk
    simp only
    split
    · rename_i heq
      rw [heq, hseen]
    · rfl
  · intro d
    unfold Client.setChunk
    simp only
    split
    · rename_i heq
      rw [heq, hdone]
    · rfl

/-- How the number of buffers in progress changes with one buffer. -/
theorem count_change {p q : Nat → Bool} {n i : Nat} (hi : i < n) (hne : ∀ j, j ≠ i → q j = p j) :
    Nat.count (fun j => q j = true) n + (p i).toNat = Nat.count (fun j => p j = true) n + (q i).toNat := by
  have hsplit : ∀ r : Nat → Bool, Nat.count (fun j => r j = true) n =
      (((Finset.range n).erase i).filter fun j => r j = true).card + (r i).toNat := by
    intro r
    rw [Nat.count_eq_card_filter_range, ← Finset.insert_erase (Finset.mem_range.mpr hi),
      Finset.filter_insert, Finset.erase_insert (Finset.notMem_erase _ _)]
    cases hr : r i <;> simp
  have hrest : ((Finset.range n).erase i).filter (fun j => q j = true) =
      ((Finset.range n).erase i).filter fun j => p j = true := by
    apply Finset.filter_congr
    intro j hj
    rw [hne j (Finset.ne_of_mem_erase hj)]
  rw [hsplit p, hsplit q, hrest]
  omega

/-- `s'` is `s` with another content of buffer `i`, which is for chunk `c`
    alone, and with the descriptor of that chunk brought up to date. -/
structure BufferChange (cfg : ClientConfig) (Good : Int → Nat → BlockBuf → Prop) (i : Nat)
    (c : Int) (s s' : Client) : Prop where
  lt : i < cfg.maxchunkbufs
  alone : ∀ j < cfg.maxchunkbufs, j ≠ i → (s.chunkBuffer j).state ≠ .empty → (s.chunkBuffer j).thischunk ≠ c
  notDone : (s.chunks c).done = false
  notFull : (s.chunkBuffer i).state ≠ .full
  /-- The buffer was free or for this chunk. -/
  before : (s.chunkBuffer i).state.inProgress = true → (s.chunkBuffer i).thischunk = c
  others : ∀ j, j ≠ i → s'.chunkBuffer j = s.chunkBuffer j
  after : (s'.chunkBuffer i).state ≠ .empty → (s'.chunkBuffer i).Ok cfg Good ∧ (s'.chunkBuffer i).thischunk = c
  /-- The other descriptors are not changed. -/
  chunks : ∀ d, d ≠ c → (s'.chunks d).seen = (s.chunks d).seen ∧ (s'.chunks d).done = (s.chunks d).done
  seen : (s'.chunks c).seen = decide ((s'.chunkBuffer i).state ≠ .empty)
  done : (s'.chunks c).done = decide ((s'.chunkBuffer i).state = .full)
  complete : (s'.chunkBuffer i).state = .full → (s'.chunkBuffer i).blockcount = 0
  /-- The counter is brought up to date. -/
  inprogress : s'.inprogress + (s.chunkBuffer i).state.inProgress.toNat =
    s.inprogress + (s'.chunkBuffer i).state.inProgress.toNat
  /-- A buffer is handed to the writer when it is complete. -/
  handed : s'.handed = s.handed ∨ s'.handed = s.handed ++ [s'.chunkBuffer i] ∧ (s'.chunkBuffer i).state = .full
  writer : s'.writer = s.writer

variable {c : Int} {i : Nat}

theorem ClientInv.change {s s' : Client} (h : ClientInv cfg Good s)
    (hc : BufferChange cfg Good i c s s') : ClientInv cfg Good s' := by
  have halone : ∀ j < cfg.maxchunkbufs, j ≠ i → (s'.chunkBuffer j).state ≠ .empty →
      (s'.chunkBuffer j).thischunk ≠ c := by
    intro j hj hji hne
    rw [hc.others j hji] at hne ⊢
    exact hc.alone j hj hji hne
  have hin : ∀ j d, j ≠ i → (s'.InBuffer cfg j d ↔ s.InBuffer cfg j d) := by
    intro j d hji
    unfold Client.InBuffer
    rw [hc.others j hji]
  constructor
  · intro j hj hne
    by_cases hji : j = i
    · subst hji
      exact (hc.after hne).1
    · rw [hc.others j hji] at hne ⊢
      exact h.buffers j hj hne
  · intro j hj k hk hnej hnek heq
    by_cases hji : j = i
    · subst hji
      by_contra hkj
      exact halone k hk (Ne.symm hkj) hnek (heq.symm.trans (hc.after hnej).2)
    · by_cases hki : k = i
      · subst hki
        exact absurd (heq.trans (hc.after hnek).2) (halone j hj hji hnej)
      · rw [hc.others j hji] at hnej heq
        rw [hc.others k hki] at hnek heq
        exact h.unique j hj k hk hnej hnek heq
  · intro d
    by_cases hd : d = c
    · subst hd
      rw [hc.seen, hc.done]
      simp only [decide_eq_true_eq]
      constructor
      · intro hne
        by_cases hfull : (s'.chunkBuffer i).state = .full
        · exact Or.inl hfull
        · right
          refine ⟨i, hc.lt, ?_, (hc.after hne).2⟩
          cases hst : (s'.chunkBuffer i).state <;> simp_all [BufState.inProgress]
      · intro hor
        rcases hor with hfull | hex
        · rw [hfull]
          decide
        · obtain ⟨j, hj, hst, hthis⟩ := hex
          have hji : j = i := by
            by_contra hji
            exact halone j hj hji (ne_empty_of_inProgress hst) hthis
          rw [← hji]
          exact ne_empty_of_inProgress hst
    · rw [(hc.chunks d hd).1, (hc.chunks d hd).2, h.seen d]
      refine or_congr_right (exists_congr fun j => ?_)
      by_cases hji : j = i
      · subst hji
        constructor
        · intro hj
          exact absurd (hj.2.2.symm.trans (hc.before hj.2.1)) hd
        · intro hj
          exact absurd (hj.2.2.symm.trans (hc.after (ne_empty_of_inProgress hj.2.1)).2) hd
      · exact (hin j d hji).symm
  · intro j d hj
    by_cases hji : j = i
    · subst hji
      have hd := (hc.after (ne_empty_of_inProgress hj.2.1)).2
      rw [← hj.2.2, hd, hc.done]
      exact decide_eq_false (ne_full_of_inProgress hj.2.1)
    · have hd : d ≠ c := by
        intro heq
        exact halone j hj.1 hji (ne_empty_of_inProgress hj.2.1) (hj.2.2.trans heq)
      rw [(hc.chunks d hd).2]
      exact h.notDone j d ((hin j d hji).mp hj)
  · intro j hj hfull
    have hne : (s'.chunkBuffer j).state ≠ .empty := by
      rw [hfull]
      decide
    by_cases hji : j = i
    · subst hji
      rw [(hc.after hne).2, hc.done]
      exact ⟨decide_eq_true hfull, hc.complete hfull⟩
    · have hd := halone j hj hji hne
      rw [(hc.chunks _ hd).2]
      rw [hc.others j hji] at hfull ⊢
      exact h.full j hj hfull
  · have hcount := count_change (p := fun j => (s.chunkBuffer j).state.inProgress)
      (q := fun j => (s'.chunkBuffer j).state.inProgress) hc.lt
      (fun j hj => by simp only [hc.others j hj])
    have hbefore := h.inprogress
    have hafter := hc.inprogress
    omega
  · -- what has been handed over before is of other chunks
    have hold : ∀ b ∈ s.handed, b.Ok cfg Good ∧ b.blockcount = 0 ∧ (s'.chunks b.thischunk).done = true := by
      intro b hb
      obtain ⟨hok, hcount, hdone⟩ := h.handed b hb
      have hd : b.thischunk ≠ c := by
        intro heq
        rw [heq, hc.notDone] at hdone
        exact Bool.false_ne_true hdone
      exact ⟨hok, hcount, (hc.chunks _ hd).2.trans hdone⟩
    intro b hb
    rcases hc.handed with heq | ⟨heq, hfull⟩
    · rw [heq] at hb
      exact hold b hb
    · rw [heq, mem_append, mem_singleton] at hb
      rcases hb with hb | rfl
      · exact hold b hb
      · obtain ⟨hok, hthis⟩ := hc.after (by rw [hfull]; decide)
        rw [hthis, hc.done]
        exact ⟨hok, hc.complete hfull, decide_eq_true hfull⟩
  · rcases hc.handed with heq | ⟨heq, hfull⟩
    · rw [heq]
      exact h.handedOnce
    · obtain ⟨-, hthis⟩ := hc.after (by rw [hfull]; decide)
      rw [heq, map_append, map_singleton, hthis, ← concat_eq_append, nodup_concat]
      refine ⟨?_, h.handedOnce⟩
      intro hmem
      obtain ⟨b, hb, hbc⟩ := mem_map.mp hmem
      have hdone := (h.handed b hb).2.2
      rw [hbc, hc.notDone] at hdone
      exact Bool.false_ne_true hdone
  · intro j hw
    rw [hc.writer] at hw
    obtain ⟨hj, hfull⟩ := h.writing j hw
    have hji : j ≠ i := by
      intro heq
      rw [heq] at hfull
      exact hc.notFull hfull
    rw [hc.others j hji]
    exact ⟨hj, hfull⟩

theorem ClientInv.absent (h : ClientInv cfg Good s) (hseen : (s.chunks c).seen = false) :
    (s.chunks c).done = false ∧ ∀ j < cfg.maxchunkbufs, (s.chunkBuffer j).state ≠ .empty →
      (s.chunkBuffer j).thischunk ≠ c := by
  have hnot : ¬((s.chunks c).done = true ∨ ∃ i, s.InBuffer cfg i c) := by
    rw [← h.seen c, hseen]
    exact Bool.false_ne_true
  constructor
  · simpa using fun hdone => hnot (Or.inl hdone)
  · intro j hj hne heq
    apply hnot
    by_cases hfull : (s.chunkBuffer j).state = .full
    · left
      rw [← heq]
      exact (h.full j hj hfull).1
    · right
      refine ⟨j, hj, ?_, heq⟩
      rw [inProgress_eq_true]
      cases hst : (s.chunkBuffer j).state <;> simp_all

theorem ClientInv.inBuffer (h : ClientInv cfg Good s) (hin : s.InBuffer cfg i c) :
    (s.chunkBuffer i).Ok cfg Good ∧ (s.chunks c).seen = true ∧ (s.chunks c).done = false ∧
      ∀ j < cfg.maxchunkbufs, j ≠ i → (s.chunkBuffer j).state ≠ .empty → (s.chunkBuffer j).thischunk ≠ c := by
  refine ⟨h.buffers i hin.1 (ne_empty_of_inProgress hin.2.1), (h.seen c).mpr (Or.inr ⟨i, hin⟩),
    h.notDone i c hin, ?_⟩
  intro j hj hji hne heq
  exact hji (h.unique j hj i hin.1 hne (ne_empty_of_inProgress hin.2.1) (heq.trans hin.2.2.symm))

theorem ClientInv.setBuffer (h : ClientInv cfg Good s)
    {b : ChunkBuffer} (hin : s.InBuffer cfg i c) (hst : b.state.inProgress = true)
    (hok : b.Ok cfg Good) (hthis : b.thischunk = c) : ClientInv cfg Good (s.setBuffer i b) := by
  obtain ⟨-, hseen, hdone, halone⟩ := h.inBuffer hin
  have hself : (s.setBuffer i b).chunkBuffer i = b := by simp [Client.setBuffer]
  have hchange : BufferChange cfg Good i c s (s.setBuffer i b) := by
    constructor <;> try rw [hself]
    case lt => exact hin.1
    case alone => exact halone
    case notDone => exact hdone
    case notFull => exact ne_full_of_inProgress hin.2.1
    case before => exact fun _ => hin.2.2
    case others => exact fun j hj => if_neg hj
    case after => exact fun _ => ⟨hok, hthis⟩
    case chunks => exact fun _ _ => ⟨rfl, rfl⟩
    case seen => exact hseen.trans (decide_eq_true (ne_empty_of_inProgress hst)).symm
    case done => exact hdone.trans (decide_eq_false (ne_full_of_inProgress hst)).symm
    case complete => exact fun hfull => absurd hfull (ne_full_of_inProgress hst)
    case inprogress => rw [hst, hin.2.1]; rfl
    case handed => exact Or.inl rfl
    case writer => rfl
  exact h.change hchange

/-- A dubious chunk has real value after all. -/
theorem ClientInv.promote (h : ClientInv cfg Good s)
    (hin : s.InBuffer cfg i c) : ClientInv cfg Good (s.setState i .filling) := by
  obtain ⟨hok, -⟩ := h.inBuffer hin
  exact h.setBuffer hin rfl ⟨hok.nonneg, hok.lt, hok.count, hok.good⟩ hin.2.2

/-- Tossing a dubious chunk out of its buffer. -/
theorem ClientInv.evict (h : ClientInv cfg Good s)
    (hin : s.InBuffer cfg i c) : ClientInv cfg Good (evict i c s) := by
  obtain ⟨-, -, hdone, halone⟩ := h.inBuffer hin
  have hself : ((Frisbee.evict i c s).chunkBuffer i).state = .empty := by
    simp [Frisbee.evict, Client.setState, Client.setBuffer]
  have hchange : BufferChange cfg Good i c s (Frisbee.evict i c s) := by
    constructor <;> try rw [hself]
    case lt => exact hin.1
    case alone => exact halone
    case notDone => exact hdone
    case notFull => exact ne_full_of_inProgress hin.2.1
    case before => exact fun _ => hin.2.2
    case others =>
      intro j hj
      simp [Frisbee.evict, Client.setState, Client.setBuffer, Client.setChunk, hj]
    case after => exact fun hne => absurd rfl hne
    case chunks =>
      intro d hd
      simp [Frisbee.evict, Client.setState, Client.setBuffer, Client.setChunk, hd]
    case seen => simp [Frisbee.evict, Client.setState, Client.setBuffer, Client.setChunk]
    case done => simp [Frisbee.evict, Client.setState, Client.setBuffer, Client.setChunk, hdone]
    case complete => exact fun hfull => by contradiction
    case inprogress =>
      rw [hin.2.1]
      simp [Frisbee.evict, Client.setChunk, BufState.inProgress]
    case handed => exact Or.inl rfl
    case writer => rfl
  exact h.change hchange

theorem ClientInv.startChunk (h : ClientInv cfg Good s)
    {csize : Nat} (hi : i < cfg.maxchunkbufs) (hempty : (s.chunkBuffer i).state = .empty)
    (hseen : (s.chunks c).seen = false) (hlo : 0 ≤ c) (hhi : c < cfg.sizes.totalChunks)
    (hsize : chunkSize cfg.sizes c = some (csize : Int)) : ClientInv cfg Good (startChunk i c csize s) := by
  obtain ⟨hdone, hother⟩ := h.absent hseen
  generalize hb : (Frisbee.startChunk i c csize s).chunkBuffer i = b
  have hbuf : b.thischunk = c ∧ b.blockcount = csize ∧ b.blockmap = ∅ ∧ b.state.inProgress = true := by
    rw [← hb]
    unfold Frisbee.startChunk Client.setBuffer
    simp only [if_true, true_and]
    split <;> rfl
  obtain ⟨hthis, hcount, hmap, hst⟩ := hbuf
  have hdones : ((Frisbee.startChunk i c csize s).chunks c).done = false := by
    simp [Frisbee.startChunk, Client.setBuffer, Client.setChunk, hdone]
  have hok : b.Ok cfg Good := by
    constructor
    · rw [hthis]
      exact hlo
    · rw [hthis]
      exact hhi
    · refine ⟨csize, ?_, ?_, ?_⟩
      · rw [hthis]
        exact hsize
      · rw [hmap]
        exact fun k hk => absurd hk (not_mem_empty k)
      · rw [hcount, hmap, card_empty]
        exact Int.add_zero _
    · rw [hmap]
      exact fun k hk => absurd hk (not_mem_empty k)
  have hchange : BufferChange cfg Good i c s (Frisbee.startChunk i c csize s) := by
    constructor <;> try rw [hb]
    case lt => exact hi
    case alone => exact fun j hj _ => hother j hj
    case notDone => exact hdone
    case notFull => rw [hempty]; decide
    case before => rw [hempty]; exact fun hst => absurd hst (by decide)
    case others =>
      intro j hj
      simp [Frisbee.startChunk, Client.setBuffer, Client.setChunk, hj]
    case after => exact fun _ => ⟨hok, hthis⟩
    case chunks =>
      intro d hd
      simp [Frisbee.startChunk, Client.setBuffer, Client.setChunk, hd]
    case seen =>
      rw [decide_eq_true (ne_empty_of_inProgress hst)]
      simp [Frisbee.startChunk, Client.setBuffer, Client.setChunk]
    case done => rw [hdones, decide_eq_false (ne_full_of_inProgress hst)]
    case complete => exact fun hfull => absurd hfull (ne_full_of_inProgress hst)
    case inprogress => rw [hst, hempty]; exact Int.add_zero _
    case handed => exact Or.inl rfl
    case writer => rfl
  exact h.change hchange

/-- Releasing a complete chunk to the writer. -/
theorem ClientInv.releaseChunk (h : ClientInv cfg Good s)
    (hin : s.InBuffer cfg i c) (hcount : (s.chunkBuffer i).blockcount = 0) :
    ClientInv cfg Good (releaseChunk i c s) := by
  obtain ⟨hok, hseen, hdone, halone⟩ := h.inBuffer hin
  have hself : (Frisbee.releaseChunk i c s).chunkBuffer i = { s.chunkBuffer i with state := .full } := by
    simp [Frisbee.releaseChunk, Client.setState, Client.setBuffer, Client.setChunk]
  have hchange : BufferChange cfg Good i c s (Frisbee.releaseChunk i c s) := by
    constructor <;> try rw [hself]
    case lt => exact hin.1
    case alone => exact halone
    case notDone => exact hdone
    case notFull => exact ne_full_of_inProgress hin.2.1
    case before => exact fun _ => hin.2.2
    case others =>
      intro j hj
      simp [Frisbee.releaseChunk, Client.setState, Client.setBuffer, Client.setChunk, hj]
    case after => exact fun _ => ⟨⟨hok.nonneg, hok.lt, hok.count, hok.good⟩, hin.2.2⟩
    case chunks =>
      intro d hd
      simp [Frisbee.releaseChunk, Client.setState, Client.setBuffer, Client.setChunk, hd]
    case seen =>
      simp [Frisbee.releaseChunk, Client.setState, Client.setBuffer, Client.setChunk, hseen]
    case done => simp [Frisbee.releaseChunk, Client.setState, Client.setBuffer, Client.setChunk]
    case complete => exact fun _ => hcount
    case inprogress =>
      rw [hin.2.1]
      simp [Frisbee.releaseChunk, Client.setState, Client.setBuffer, Client.setChunk, BufState.inProgress]
    case handed =>
      right
      simp [Frisbee.releaseChunk, Client.setState, Client.setBuffer, Client.setChunk]
    case writer => rfl
  exact h.change hchange

end Emulab.Frisbee
