import Emulab.Frisbee.BlockMap
import Emulab.Lib.Machine

/-! # The work queue of the frisbee server

  A time ordered list of chunk pieces that clients are missing. A request
  is merged into an element of the same chunk where that is possible; the
  element at the head is taken apart one contiguous range at a time.
-/

namespace Emulab.Frisbee

open MachineInt BitMap List

/-! ## Section 1: The queue and its operations -/

/-- An element of the queue. A JOIN reply is an element with a negative
    `chunk`, whose `nblocks` is the client's id. -/
structure WQelem where
  chunk : Int
  nblocks : Int
  blockmap : BlockMap
deriving DecidableEq

/-- The queue, head first, with the static variables that go with it. -/
structure WorkQueue where
  workQ : List WQelem
  workQSize : Int
  /-- The chunk of the range handed out last. -/
  workChunk : Int
  /-- The first block of the range handed out last. -/
  workBlock : Int
  workCount : Int
deriving DecidableEq

/-- What a successful `WorkQueueDequeue` stores through its arguments. -/
structure Work where
  /-- The chunk, or the negated version of a JOIN. -/
  chunk : Int
  /-- The first block; not stored for a JOIN. -/
  block : Option Int
  /-- The number of blocks, or the client's id of a JOIN. -/
  count : Int
deriving DecidableEq

/-- The queue of a server that has just started. -/
def workQueueInit : WorkQueue :=
  { workQ := [], workQSize := 0, workChunk := 0, workBlock := 0, workCount := 0 }

/-- Enqueue a join reply. We always stick this at the head of the queue. -/
def workQueueEnqueueJoin (q : WorkQueue) (vers : Int) (clientid : Nat) : WorkQueue :=
  { q with
    workQ := { chunk := -vers, nblocks := toInt32 clientid, blockmap := ∅ } :: q.workQ
    workQSize := q.workQSize + 1 }

/-- Merge a request into an element of its chunk. -/
def mergeRequest (wqel : WQelem) (map : BlockMap) (count : Int) : Option WQelem :=
  let (blockmap, blocks) :=
    if wqel.nblocks = MAXCHUNKSIZE then
      (wqel.blockmap, 0)
    else if count = MAXCHUNKSIZE then
      (map, MAXCHUNKSIZE - wqel.nblocks)
    else
      let (blockmap, did) := blockMapMerge map wqel.blockmap
      (blockmap, (did : Int))
  if wqel.nblocks + blocks ≤ MAXCHUNKSIZE then
    some { wqel with nblocks := wqel.nblocks + blocks, blockmap := blockmap }
  else
    none

/-- The request for `map` reaches into, or lies before, the range of `chunk` that is being processed. -/
def overlapsWork (q : WorkQueue) (chunk : Int) (map : BlockMap) : Bool :=
  chunk = q.workChunk ∧ (blockMapFirst map : Int) < q.workBlock + q.workCount

/-- The reverse iteration over the queue in `WorkQueueEnqueueChunk`: the
    elements behind an element are visited before it. The result is the queue
    with the request merged into one element, if there is one to take it. -/
def mergeIntoQueue (q : WorkQueue) (chunk : Int) (map : BlockMap) (count : Int) :
    (isFirst : Bool) → List WQelem → Option (Option (List WQelem))
  | _, [] => some none
  | isFirst, wqel :: behind => do
    match ← mergeIntoQueue q chunk map count false behind with
    | some behind => some (some (wqel :: behind))
    | none =>
      if wqel.chunk = chunk then
        if isFirst ∧ overlapsWork q chunk map then
          some none
        else
          let wqel ← mergeRequest wqel map count
          some (some (wqel :: behind))
      else
        some none

/-- Enqueue a chunk request; also whether it became an element of its own. -/
def workQueueEnqueueChunk (q : WorkQueue) (chunk : Int) (map : BlockMap) (count : Int) :
    Option (Bool × WorkQueue) := do
  if count = 0 then
    some (false, q)
  else if count = MAXCHUNKSIZE ∧ chunk = q.workChunk ∧ count = q.workCount then
    some (false, q)
  else
    match ← mergeIntoQueue q chunk map count true q.workQ with
    | some workQ => some (false, { q with workQ := workQ })
    | none =>
      some (true, { q with
        workQ := q.workQ ++ [{ chunk := chunk, nblocks := count, blockmap := map }]
        workQSize := q.workQSize + 1 })

/-- Take the next piece of work off the queue, if there is any. -/
def workQueueDequeue (q : WorkQueue) : Option (Option Work × WorkQueue) :=
  match q.workQ with
  | [] => some (none, { q with workChunk := -1 })
  | wqel :: behind =>
    let chunk := wqel.chunk
    if chunk < 0 then
      some (some { chunk := chunk, block := none, count := wqel.nblocks },
        { q with workQ := behind, workQSize := q.workQSize - 1 })
    else
      let (block, count, blockmap) :=
        if wqel.nblocks = MAXCHUNKSIZE then (0, MAXCHUNKSIZE, wqel.blockmap)
        else blockMapExtract wqel.blockmap
      if (count : Int) ≤ wqel.nblocks then
        let nblocks := wqel.nblocks - count
        let q := if nblocks = 0 then { q with workQ := behind, workQSize := q.workQSize - 1 }
          else { q with
            workQ := { wqel with nblocks := nblocks, blockmap := blockmap } :: behind }
        some (some { chunk := chunk, block := some (block : Int), count := count },
          { q with workChunk := chunk, workBlock := block, workCount := count })
      else
        none

/-! ## Section 2: What one call does -/

/-- A chunk element counts the blocks of its map and is not empty. -/
structure WQelem.Valid (wqel : WQelem) : Prop where
  nblocks : wqel.nblocks = wqel.blockmap.card
  pos : 0 < wqel.nblocks

theorem WQelem.Valid.le {wqel : WQelem} (h : wqel.Valid) : wqel.nblocks ≤ 1024 := by
  have : wqel.blockmap.card ≤ 8 * 128 := card_le _
  have := h.nblocks
  omega

theorem mem_of_full {m : BlockMap} {count : Int} (hcount : count = m.card) (hfull : count = 1024)
    {k : Nat} (hk : k < 1024) : k ∈ m := by
  have hcard : m.card = 1024 := by omega
  exact mem_of_card_eq (fun _ => lt_of_mem_map) hcard hk

theorem mergeRequest_spec {wqel : WQelem} {map : BlockMap} {count : Int} (h : wqel.Valid)
    (hcount : count = map.card) :
    ∃ wqel', mergeRequest wqel map count = some wqel' ∧ wqel'.chunk = wqel.chunk ∧ wqel'.Valid ∧
      ∀ k, k ∈ wqel'.blockmap ↔ k ∈ wqel.blockmap ∨ k ∈ map := by
  have hle := h.le
  have hpos := h.pos
  unfold mergeRequest
  by_cases hold : wqel.nblocks = MAXCHUNKSIZE
  · simp only [hold, if_true, add_zero, le_refl]
    refine ⟨_, rfl, rfl, ⟨by rw [← hold]; exact h.nblocks, by simp⟩, fun k => ⟨Or.inl, ?_⟩⟩
    rintro (hk | hk)
    · exact hk
    · exact mem_of_full h.nblocks hold (lt_of_mem_map hk)
  · by_cases hnew : count = MAXCHUNKSIZE
    · simp only [if_neg hold, if_pos hnew, add_sub_cancel, le_refl, if_true]
      refine ⟨_, rfl, rfl, ⟨by rw [← hnew]; exact hcount, by simp⟩, fun k => ⟨Or.inr, ?_⟩⟩
      rintro (hk | hk)
      · exact mem_of_full hcount hnew (lt_of_mem_map hk)
      · exact hk
    · obtain ⟨hmem, hcard⟩ := blockMapMerge_spec map wqel.blockmap
      have hnb := h.nblocks
      have hmax : (blockMapMerge map wqel.blockmap).1.card ≤ 8 * 128 := card_le _
      have hfits : wqel.nblocks + ((blockMapMerge map wqel.blockmap).2 : Int) ≤ MAXCHUNKSIZE := by
        simp only [MAXCHUNKSIZE]
        omega
      simp only [if_neg hold, if_neg hnew, if_pos hfits]
      refine ⟨_, rfl, rfl, ⟨?_, ?_⟩, hmem⟩
      · simp only [hcard, hnb]
        push_cast
        rfl
      · simp only
        omega

/-- `l'` is `l` with one element of `chunk` extended by the blocks of `map`. -/
def MergedInto (chunk : Int) (map : BlockMap) (l l' : List WQelem) : Prop :=
  ∃ pre wqel wqel' post, l = pre ++ wqel :: post ∧ l' = pre ++ wqel' :: post ∧
    wqel.chunk = chunk ∧ wqel'.chunk = chunk ∧ wqel'.Valid ∧ ∀ k, k ∈ wqel'.blockmap ↔ k ∈ wqel.blockmap ∨ k ∈ map

theorem MergedInto.cons {chunk : Int} {map : BlockMap} {l l' : List WQelem} (wqel : WQelem)
    (h : MergedInto chunk map l l') : MergedInto chunk map (wqel :: l) (wqel :: l') := by
  obtain ⟨pre, e, e', post, rfl, rfl, h⟩ := h
  exact ⟨wqel :: pre, e, e', post, rfl, rfl, h⟩

/-- The iteration merges into an element of the chunk, unless the only one is
    the first of the queue and is being processed. -/
theorem mergeIntoQueue_spec (q : WorkQueue) {chunk : Int} {map : BlockMap} {count : Int}
    (hcount : count = map.card) (isFirst : Bool) (l : List WQelem)
    (hvalid : ∀ wqel ∈ l, wqel.chunk = chunk → wqel.Valid) :
    (∃ l', mergeIntoQueue q chunk map count isFirst l = some (some l') ∧ MergedInto chunk map l l') ∨
      mergeIntoQueue q chunk map count isFirst l = some none ∧
        l.countP (fun wqel => wqel.chunk = chunk) ≤ if isFirst then 1 else 0 := by
  induction l generalizing isFirst with
  | nil => exact Or.inr ⟨rfl, by simp⟩
  | cons wqel behind ih =>
    rw [mergeIntoQueue]
    obtain ⟨l', hl', hmerged⟩ | ⟨hnone, hcountP⟩ := ih false fun e he => hvalid e (mem_cons_of_mem _ he)
    · rw [hl']
      exact Or.inl ⟨_, rfl, hmerged.cons wqel⟩
    · rw [hnone]
      simp only [Bool.false_eq_true, if_false, Nat.le_zero] at hcountP
      by_cases hchunk : wqel.chunk = chunk
      · by_cases hbusy : isFirst = true ∧ overlapsWork q chunk map = true
        · refine Or.inr ⟨by simp [hchunk, hbusy.1, hbusy.2], ?_⟩
          simp [hcountP, hchunk, hbusy.1]
        · obtain ⟨wqel', hreq, hchunk', hvalid', hmem⟩ :=
            mergeRequest_spec (hvalid wqel mem_cons_self hchunk) hcount
          refine Or.inl ⟨wqel' :: behind, ?_, [], wqel, wqel', behind, rfl, rfl, hchunk,
            hchunk' ▸ hchunk, hvalid', hmem⟩
          simp [hchunk, hbusy, hreq]
      · refine Or.inr ⟨by simp [hchunk], ?_⟩
        simp [hcountP, hchunk]

/-- The fast path: the request is for the whole chunk and the range handed out last was this whole chunk. -/
def skipsFull (q : WorkQueue) (chunk count : Int) : Prop :=
  count = MAXCHUNKSIZE ∧ chunk = q.workChunk ∧ count = q.workCount

instance (q : WorkQueue) (chunk count : Int) : Decidable (skipsFull q chunk count) :=
  inferInstanceAs (Decidable (_ ∧ _))

theorem workQueueEnqueueChunk_cases (q : WorkQueue) (chunk : Int) {map : BlockMap} {count : Int}
    (hcount : count = map.card) (hvalid : ∀ wqel ∈ q.workQ, wqel.chunk = chunk → wqel.Valid) :
    (workQueueEnqueueChunk q chunk map count = some (false, q) ∧ (count = 0 ∨ skipsFull q chunk count)) ∨
      (∃ l', workQueueEnqueueChunk q chunk map count = some (false, { q with workQ := l' }) ∧
        MergedInto chunk map q.workQ l' ∧ ¬skipsFull q chunk count) ∨
      (workQueueEnqueueChunk q chunk map count = some (true, { q with
          workQ := q.workQ ++ [{ chunk := chunk, nblocks := count, blockmap := map }]
          workQSize := q.workQSize + 1 }) ∧
        q.workQ.countP (fun wqel => wqel.chunk = chunk) ≤ 1 ∧ count ≠ 0 ∧ ¬skipsFull q chunk count) := by
  unfold workQueueEnqueueChunk
  by_cases hzero : count = 0
  · exact Or.inl ⟨by rw [if_pos hzero], Or.inl hzero⟩
  by_cases hskip : skipsFull q chunk count
  · refine Or.inl ⟨?_, Or.inr hskip⟩
    rw [if_neg hzero, skipsFull] at *
    rw [if_pos hskip]
  · have hneg : ¬(count = MAXCHUNKSIZE ∧ chunk = q.workChunk ∧ count = q.workCount) := hskip
    rw [if_neg hzero, if_neg hneg]
    obtain ⟨l', hl', hmerged⟩ | ⟨hnone, hcountP⟩ := mergeIntoQueue_spec q hcount true q.workQ hvalid
    · rw [hl']
      exact Or.inr (Or.inl ⟨l', rfl, hmerged, hskip⟩)
    · rw [hnone]
      exact Or.inr (Or.inr ⟨rfl, by simpa using hcountP, hzero, hskip⟩)

/-- `w` is a contiguous range of the element at the head of `q`, and `q'` is
    `q` without exactly this range. -/
def RemovesRange (q : WorkQueue) (w : Work) (q' : WorkQueue) : Prop :=
  ∃ (wqel : WQelem) (behind : List WQelem) (block count : Nat),
    q.workQ = wqel :: behind ∧ wqel.chunk = w.chunk ∧ w.block = some (block : Int) ∧
      w.count = count ∧ 0 < count ∧ block + count ≤ MAXCHUNKSIZE ∧
      (∀ k, block ≤ k → k < block + count → k ∈ wqel.blockmap) ∧
      ((q'.workQ = behind ∧ ∀ k ∈ wqel.blockmap, block ≤ k ∧ k < block + count) ∨
        ∃ wqel', q'.workQ = wqel' :: behind ∧ wqel'.chunk = wqel.chunk ∧ wqel'.Valid ∧
          ∀ k, k ∈ wqel'.blockmap ↔ k ∈ wqel.blockmap ∧ ¬(block ≤ k ∧ k < block + count))

/-- Everything a dequeue can do. -/
theorem workQueueDequeue_cases (q : WorkQueue) (hvalid : ∀ wqel ∈ q.workQ, 0 ≤ wqel.chunk → wqel.Valid) :
    (q.workQ = [] ∧ workQueueDequeue q = some (none, { q with workChunk := -1 })) ∨
      (∃ wqel behind, q.workQ = wqel :: behind ∧ wqel.chunk < 0 ∧
        workQueueDequeue q = some (some ⟨wqel.chunk, none, wqel.nblocks⟩,
          { q with workQ := behind, workQSize := q.workQSize - 1 })) ∨
      (∃ w q', workQueueDequeue q = some (some w, q') ∧ 0 ≤ w.chunk ∧ RemovesRange q w q' ∧
        q'.workChunk = w.chunk ∧ w.block = some q'.workBlock ∧ q'.workCount = w.count ∧
        q'.workQSize - q'.workQ.length = q.workQSize - q.workQ.length) := by
  unfold workQueueDequeue
  rcases hq : q.workQ with _ | ⟨wqel, behind⟩
  · exact Or.inl ⟨rfl, rfl⟩
  right
  by_cases hjoin : wqel.chunk < 0
  · refine Or.inl ⟨wqel, behind, rfl, hjoin, ?_⟩
    simp only [if_pos hjoin]
  right
  have hvalid : wqel.Valid := hvalid wqel (hq ▸ mem_cons_self) (by omega)
  have hle := hvalid.le
  have hpos := hvalid.pos
  have hnb := hvalid.nblocks
  simp only [if_neg hjoin]
  by_cases hfull : wqel.nblocks = MAXCHUNKSIZE
  · -- the whole chunk is handed out at once
    have hmem : ∀ k, k < 1024 → k ∈ wqel.blockmap := fun k hk => mem_of_full hnb hfull hk
    simp only [hfull, le_refl, if_true, sub_self]
    refine ⟨_, _, rfl, by simpa using hjoin, ⟨wqel, behind, 0, 1024, hq, rfl, rfl, rfl, by omega,
      by simp, fun k _ h2 => hmem k (by omega), Or.inl ⟨rfl, fun k hk => ?_⟩⟩, rfl, rfl, rfl, ?_⟩
    · have := lt_of_mem_map hk
      omega
    · simp only [length_cons]
      omega
  · have hex := blockMapExtract_spec wqel.blockmap
    generalize hres : blockMapExtract wqel.blockmap = res at hex
    obtain ⟨block, count, blockmap⟩ := res
    have hcard := hex.card
    have hcount : 0 < count := hex.pos (card_pos.mp (by omega))
    have hfit := hex.le hcount
    have hfits : (count : Int) ≤ wqel.nblocks := by
      simp only at hcard
      omega
    simp only at hcard hcount hfit
    simp only [if_neg hfull, if_pos hfits]
    by_cases hlast : wqel.nblocks - (count : Int) = 0
    · simp only [if_pos hlast]
      refine ⟨_, _, rfl, by simpa using hjoin, ⟨wqel, behind, block, count, hq, rfl, rfl, rfl,
        hcount, hfit, hex.run, Or.inl ⟨rfl, fun k hk => ?_⟩⟩, rfl, rfl, rfl, ?_⟩
      · by_contra hout
        have : 0 < blockmap.card := card_pos.mpr ⟨k, (hex.rest k).mpr ⟨hk, hout⟩⟩
        omega
      · simp only [length_cons]
        omega
    · simp only [if_neg hlast]
      refine ⟨_, _, rfl, by simpa using hjoin, ⟨wqel, behind, block, count, hq, rfl, rfl, rfl,
        hcount, hfit, hex.run, Or.inr ⟨_, rfl, rfl, ⟨?_, ?_⟩, hex.rest⟩⟩, rfl, rfl, rfl, ?_⟩
      · simp only
        omega
      · simp only
        omega
      · simp

end Emulab.Frisbee
