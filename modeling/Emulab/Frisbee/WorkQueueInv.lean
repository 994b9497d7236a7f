import Emulab.Frisbee.WorkQueue

/-! # Histories of the work queue

  Any number of calls to the three queue operations, in any order. The
  operations take the queue's lock, so a history of the threads of the
  server is a sequence of whole calls.
-/

namespace Emulab.Frisbee

open MachineInt BitMap Machine
open List hiding mem_toFinset

/-! ## Section 1: Histories -/

inductive Call where
  | enqueueJoin (vers : Int) (clientid : Nat)
  | enqueueChunk (chunk : Int) (map : BlockMap) (count : Int)
  | dequeue

/-- What the callers guarantee: a positive protocol version, a valid chunk
    number and the number of blocks in the map. -/
def Call.WellFormed : Call → Prop
  | .enqueueJoin vers _ => 0 < vers
  | .enqueueChunk chunk map count => 0 ≤ chunk ∧ count = map.card
  | .dequeue => True

/-- The queue together with the results of all `WorkQueueDequeue` calls so far, the most recent first. -/
structure QueueState where
  queue : WorkQueue
  results : List (Option Work)

/-- No call has been made. -/
def QueueState.start : QueueState := { queue := workQueueInit, results := [] }

def QueueState.step (s : QueueState) : Call → Option QueueState
  | .enqueueJoin vers clientid =>
    some { s with queue := workQueueEnqueueJoin s.queue vers clientid }
  | .enqueueChunk chunk map count => do
    let (_, queue) ← workQueueEnqueueChunk s.queue chunk map count
    some { s with queue := queue }
  | .dequeue => do
    let (work, queue) ← workQueueDequeue s.queue
    some { queue := queue, results := work :: s.results }

/-! ## Section 2: The invariant of the queue -/

structure WorkQueue.Inv (q : WorkQueue) : Prop where
  size : q.workQSize = q.workQ.length
  valid : ∀ wqel ∈ q.workQ, 0 ≤ wqel.chunk → wqel.Valid
  atMostTwo : ∀ chunk, 0 ≤ chunk → q.workQ.countP (fun wqel => wqel.chunk = chunk) ≤ 2

theorem inv_workQueueInit : workQueueInit.Inv :=
  ⟨rfl, by simp [workQueueInit], by simp [workQueueInit]⟩

theorem inv_enqueueJoin {q : WorkQueue} (h : q.Inv) {vers : Int} (hvers : 0 < vers)
    (clientid : Nat) : (workQueueEnqueueJoin q vers clientid).Inv := by
  refine ⟨?_, fun wqel hmem hchunk => ?_, fun chunk hchunk => ?_⟩
  · simp [workQueueEnqueueJoin, h.size]
  · rcases mem_cons.mp hmem with rfl | hmem
    · simp only at hchunk
      omega
    · exact h.valid wqel hmem hchunk
  · have : ¬(-vers = chunk) := by omega
    simpa [workQueueEnqueueJoin, this] using h.atMostTwo chunk hchunk

theorem MergedInto.inv {q : WorkQueue} (h : q.Inv) {chunk : Int} {map : BlockMap}
    {l' : List WQelem} (hm : MergedInto chunk map q.workQ l') : { q with workQ := l' }.Inv := by
  obtain ⟨pre, wqel, wqel', post, hl, rfl, hchunk, hchunk', hvalid', -⟩ := hm
  refine ⟨?_, fun e hmem he => ?_, fun c hc => ?_⟩
  · simpa [hl] using h.size
  · have hold := h.valid e
    rw [hl] at hold
    simp only [mem_append, mem_cons] at hmem hold
    rcases hmem with hpre | rfl | hpost
    · exact hold (Or.inl hpre) he
    · exact hvalid'
    · exact hold (Or.inr (Or.inr hpost)) he
  · have hold := h.atMostTwo c hc
    rw [hl] at hold
    simpa [countP_cons, hchunk, hchunk'] using hold

theorem inv_enqueueChunk {q q' : WorkQueue} (h : q.Inv) {chunk : Int} {map : BlockMap}
    {count : Int} {enqueued : Bool} (hchunk : 0 ≤ chunk) (hcount : count = map.card)
    (hstep : workQueueEnqueueChunk q chunk map count = some (enqueued, q')) : q'.Inv := by
  obtain ⟨hsame, -⟩ | ⟨l', hmerge, hm, -⟩ | ⟨happend, hone, hne, -⟩ :=
    workQueueEnqueueChunk_cases q chunk hcount fun e he hc => h.valid e he (hc ▸ hchunk)
  · rw [hsame] at hstep
    obtain ⟨-, rfl⟩ : false = enqueued ∧ q = q' := by simpa using hstep
    exact h
  · rw [hmerge] at hstep
    obtain ⟨-, rfl⟩ : false = enqueued ∧ { q with workQ := l' } = q' := by simpa using hstep
    exact hm.inv h
  · rw [happend, Option.some.injEq, Prod.mk.injEq] at hstep
    obtain ⟨-, rfl⟩ := hstep
    refine ⟨?_, fun e hmem he => ?_, fun c hc => ?_⟩
    · simp [h.size]
    · rcases mem_append.mp hmem with hmem | hmem
      · exact h.valid e hmem he
      · obtain rfl := mem_singleton.mp hmem
        exact ⟨hcount, by simp only; omega⟩
    · have hold := h.atMostTwo c hc
      by_cases heq : chunk = c
      · subst heq
        simpa using hone
      · simpa [heq] using hold

theorem RemovesRange.inv {q q' : WorkQueue} {w : Work} (h : q.Inv) (hr : RemovesRange q w q')
    (hsize : q'.workQSize - q'.workQ.length = q.workQSize - q.workQ.length) : q'.Inv := by
  have hsz := h.size
  obtain ⟨wqel, behind, block, count, hq, hchunk, -, -, -, -, -, hrest⟩ := hr
  have hvalid := h.valid
  have htwo := h.atMostTwo
  rw [hq] at hvalid htwo
  refine ⟨by omega, fun e hmem he => ?_, fun c hc => ?_⟩
  · rcases hrest with ⟨hq', -⟩ | ⟨wqel', hq', -, hvalid', -⟩
    · exact hvalid e (mem_cons_of_mem _ (hq' ▸ hmem)) he
    · rw [hq'] at hmem
      rcases mem_cons.mp hmem with rfl | hmem
      · exact hvalid'
      · exact hvalid e (mem_cons_of_mem _ hmem) he
  · have htwo := htwo c hc
    rcases hrest with ⟨hq', -⟩ | ⟨wqel', hq', hchunk', -, -⟩
    · rw [hq']
      exact le_trans (sublist_cons_self wqel behind).countP_le htwo
    · rw [hq']
      simpa [countP_cons, hchunk'] using htwo

/-- Every operation keeps the invariant, and none of their assertions fails. -/
theorem inv_step {s : QueueState} {c : Call} (h : s.queue.Inv) (hc : c.WellFormed) :
    ∃ s', s.step c = some s' ∧ s'.queue.Inv := by
  cases c with
  | enqueueJoin vers clientid => exact ⟨_, rfl, inv_enqueueJoin h hc clientid⟩
  | enqueueChunk chunk map count =>
    obtain ⟨hchunk, hcount⟩ := hc
    have hcases := workQueueEnqueueChunk_cases s.queue chunk hcount
      fun e he hc => h.valid e he (hc ▸ hchunk)
    have hsome : ∃ r, workQueueEnqueueChunk s.queue chunk map count = some r := by
      obtain ⟨hr, -⟩ | ⟨_, hr, -⟩ | ⟨hr, -⟩ := hcases <;> exact ⟨_, hr⟩
    obtain ⟨⟨enqueued, q'⟩, hr⟩ := hsome
    exact ⟨{ s with queue := q' }, by simp [QueueState.step, hr], inv_enqueueChunk h hchunk hcount hr⟩
  | dequeue =>
    obtain ⟨hq, hr⟩ | ⟨wqel, behind, hq, hneg, hr⟩ | ⟨w, q', hr, -, hrange, -, -, -, hsize⟩ :=
      workQueueDequeue_cases s.queue h.valid
    · refine ⟨_, by simp only [QueueState.step, hr]; rfl, ?_⟩
      exact ⟨h.size, h.valid, h.atMostTwo⟩
    · refine ⟨_, by simp only [QueueState.step, hr]; rfl, ?_⟩
      have hsz := h.size
      rw [hq] at hsz
      refine ⟨?_, fun e he => h.valid e (hq ▸ mem_cons_of_mem _ he), fun c hc => ?_⟩
      · simp only [hsz, length_cons]
        omega
      · have := h.atMostTwo c hc
        rw [hq] at this
        exact le_trans (sublist_cons_self wqel behind).countP_le this
    · refine ⟨_, by simp only [QueueState.step, hr]; rfl, hrange.inv h hsize⟩

/-! ## Section 3: JOIN replies are neither merged nor duplicated -/

def joinsQueued (q : WorkQueue) : Multiset (Int × Int) :=
  ((q.workQ.filter fun wqel => wqel.chunk < 0).map fun wqel => (wqel.chunk, wqel.nblocks) :)

/-- The JOIN replies among the results of the dequeue calls. -/
def joinsReturned (results : List (Option Work)) : Multiset (Int × Int) :=
  (((results.filterMap id).filter fun w => w.chunk < 0).map fun w => (w.chunk, w.count) :)

/-- The JOIN reply a call puts into the queue. -/
def Call.join : Call → Multiset (Int × Int)
  | .enqueueJoin vers clientid => {(-vers, toInt32 clientid)}
  | .enqueueChunk .. => 0
  | .dequeue => 0

theorem MergedInto.joins {q : WorkQueue} {chunk : Int} {map : BlockMap} {l' : List WQelem}
    (hchunk : 0 ≤ chunk) (hm : MergedInto chunk map q.workQ l') :
    joinsQueued { q with workQ := l' } = joinsQueued q := by
  obtain ⟨pre, wqel, wqel', post, hl, rfl, hc, hc', -⟩ := hm
  have h : ¬wqel.chunk < 0 := by omega
  have h' : ¬wqel'.chunk < 0 := by omega
  simp [joinsQueued, hl, h, h']

theorem joins_step {s s' : QueueState} {c : Call} (h : s.queue.Inv) (hc : c.WellFormed)
    (hstep : s.step c = some s') :
    joinsQueued s'.queue + joinsReturned s'.results = joinsQueued s.queue + joinsReturned s.results + c.join := by
  cases c with
  | enqueueJoin vers clientid =>
    have hc : 0 < vers := hc
    have hneg : -vers < 0 := by omega
    obtain rfl := Option.some.inj hstep
    simp only [joinsQueued, workQueueEnqueueJoin, Call.join, filter_cons, hneg, decide_true,
      if_true, map_cons, ← Multiset.cons_coe, ← Multiset.singleton_add]
    abel
  | enqueueChunk chunk map count =>
    obtain ⟨hchunk, hcount⟩ := hc
    obtain ⟨hr, -⟩ | ⟨l', hr, hm, -⟩ | ⟨hr, -⟩ := workQueueEnqueueChunk_cases s.queue
      chunk hcount fun e he hc => h.valid e he (hc ▸ hchunk)
    · obtain rfl : s = s' := by simpa [QueueState.step, hr] using hstep
      simp [Call.join]
    · obtain rfl : { s with queue := { s.queue with workQ := l' } } = s' := by
        simpa [QueueState.step, hr] using hstep
      simp [Call.join, hm.joins hchunk]
    · simp only [QueueState.step, hr, Option.bind_eq_bind, Option.bind_some, Option.some.injEq] at hstep
      subst hstep
      have hneg : ¬chunk < 0 := by omega
      simp [joinsQueued, Call.join, hneg]
  | dequeue =>
    obtain ⟨hq, hr⟩ | ⟨wqel, behind, hq, hneg, hr⟩ | ⟨w, q', hr, hpos, hrange, -⟩ :=
      workQueueDequeue_cases s.queue h.valid
    · simp only [QueueState.step, hr, Option.bind_eq_bind, Option.bind_some, Option.some.injEq] at hstep
      subst hstep
      simp [joinsQueued, joinsReturned, Call.join]
    · simp only [QueueState.step, hr, Option.bind_eq_bind, Option.bind_some, Option.some.injEq] at hstep
      subst hstep
      simp only [joinsQueued, joinsReturned, Call.join, hq, filterMap_cons, id,
        filter_cons, hneg, decide_true, if_true, map_cons, ← Multiset.cons_coe,
        ← Multiset.singleton_add]
      abel
    · simp only [QueueState.step, hr, Option.bind_eq_bind, Option.bind_some, Option.some.injEq] at hstep
      subst hstep
      obtain ⟨wqel, behind, block, count, hq, hchunk, -, -, -, -, -, hrest⟩ := hrange
      have hw : ¬w.chunk < 0 := by omega
      have hwqel : ¬wqel.chunk < 0 := by omega
      rcases hrest with ⟨hq', -⟩ | ⟨wqel', hq', hchunk', -, -⟩
      · simp [joinsQueued, joinsReturned, Call.join, hq, hq', hw, hwqel]
      · have hwqel' : ¬wqel'.chunk < 0 := by omega
        simp [joinsQueued, joinsReturned, Call.join, hq, hq', hw, hwqel, hwqel']

/-! ## Section 4: The queue over whole histories -/

theorem inv_run {calls : List Call} (hwf : ∀ c ∈ calls, c.WellFormed) :
    ∃ s, run QueueState.step .start calls = some s ∧ s.queue.Inv :=
  run_total (fun s : QueueState => s.queue.Inv) (fun _ _ h hc => inv_step h hc) inv_workQueueInit (meets_of_forall hwf _)

/-- What holds of the queue after a history of calls. -/
structure WorkQueueHolds (calls : List Call) (s : QueueState) : Prop where
  size : s.queue.workQSize = s.queue.workQ.length
  nblocks : ∀ wqel ∈ s.queue.workQ, 0 ≤ wqel.chunk →
    wqel.nblocks = wqel.blockmap.card ∧ 1 ≤ wqel.nblocks ∧ wqel.nblocks ≤ MAXCHUNKSIZE
  atMostTwo : ∀ chunk, 0 ≤ chunk → s.queue.workQ.countP (fun wqel => wqel.chunk = chunk) ≤ 2
  /-- The JOIN replies put into the queue are those in it and those handed out. -/
  joins : joinsQueued s.queue + joinsReturned s.results = (calls.map Call.join).sum
  /-- A dequeue of a chunk element removes the range it returns and no more. -/
  dequeue : ∀ w q', workQueueDequeue s.queue = some (some w, q') → 0 ≤ w.chunk → RemovesRange s.queue w q'

/-- The work queue is consistent after every history of well-formed calls. -/
theorem workQueue_invariant {calls : List Call} (hwf : ∀ c ∈ calls, c.WellFormed) :
    ∃ s, run QueueState.step .start calls = some s ∧ WorkQueueHolds calls s := by
  obtain ⟨s, hrun, hinv⟩ := inv_run hwf
  refine ⟨s, hrun, hinv.size, fun wqel hmem hchunk => ?_, hinv.atMostTwo, ?_,
    fun w q' hdeq hw => ?_⟩
  · have hvalid := hinv.valid wqel hmem hchunk
    exact ⟨hvalid.nblocks, hvalid.pos, hvalid.le⟩
  · have hsum := run_sum (fun s : QueueState => s.queue.Inv)
      (fun s => joinsQueued s.queue + joinsReturned s.results) Call.join
      (fun s c s' h hc hstep => by
        obtain ⟨s₁, hs₁, hinv₁⟩ := inv_step h hc
        obtain rfl : s₁ = s' := Option.some.inj (hs₁.symm.trans hstep)
        exact ⟨hinv₁, joins_step h hc hstep⟩)
      inv_workQueueInit (meets_of_forall hwf _) hrun
    simpa [QueueState.start, joinsQueued, joinsReturned, workQueueInit] using hsum
  · obtain ⟨-, hr⟩ | ⟨wqel, behind, -, hneg, hr⟩ | ⟨w', q'', hr, -, hrange, -⟩ :=
      workQueueDequeue_cases s.queue hinv.valid
    · rw [hr] at hdeq
      simp at hdeq
    · rw [hr] at hdeq
      obtain ⟨rfl, -⟩ : _ = w ∧ _ = q' := by simpa using hdeq
      simp only at hw
      omega
    · rw [hr] at hdeq
      obtain ⟨rfl, rfl⟩ : w' = w ∧ q'' = q' := by simpa using hdeq
      exact hrange

/-- Every block of a chunk. -/
def fullMap : BlockMap := fill (BitVec.allOnes 8)

theorem card_fullMap : fullMap.card = 1024 := by
  have : fullMap.toFinset = Finset.range 1024 := by
    ext k
    rw [mem_toFinset, Finset.mem_range]
    exact mem_fill_ones
  rw [card, this, Finset.card_range]

theorem wellFormed_fullMap : (Call.enqueueChunk 0 fullMap 1024).WellFormed :=
  ⟨le_rfl, by rw [card_fullMap]; rfl⟩

/-- The history of a client that joins and requests a whole chunk. -/
theorem workQueue_invariant_join_request : ∃ s, run QueueState.step .start
        [.enqueueJoin 2 7, .enqueueChunk 0 fullMap 1024, .dequeue] = some s ∧
      WorkQueueHolds [.enqueueJoin 2 7, .enqueueChunk 0 fullMap 1024, .dequeue] s :=
  workQueue_invariant (by
    rintro c (_ | ⟨_, _ | ⟨_, _ | ⟨_, ⟨⟩⟩⟩⟩)
    · exact (by decide : (0 : Int) < 2)
    · exact wellFormed_fullMap
    · trivial)

/-! ## Section 5: No request is dropped -/

/-- What the most recent `WorkQueueDequeue` call returned. -/
def QueueState.current (s : QueueState) : Option Work := s.results.head?.join

/-- Block `b` of `chunk` is in an element of the queue. -/
def Queued (q : WorkQueue) (chunk : Int) (b : Nat) : Prop :=
  ∃ wqel ∈ q.workQ, wqel.chunk = chunk ∧ b ∈ wqel.blockmap

/-- Block `b` of `chunk` is part of the piece of work `w`. -/
def Work.Has (w : Work) (chunk : Int) (b : Nat) : Prop :=
  w.chunk = chunk ∧ ∃ block ∈ w.block, block ≤ (b : Int) ∧ (b : Int) < block + w.count

/-- Block `b` of `chunk` will still be sent: it is queued, or part of the work handed out last. -/
def Covered (s : QueueState) (chunk : Int) (b : Nat) : Prop :=
  Queued s.queue chunk b ∨ ∃ w ∈ s.current, w.Has chunk b

instance (q : WorkQueue) (chunk : Int) (b : Nat) : Decidable (Queued q chunk b) :=
  inferInstanceAs (Decidable (∃ wqel ∈ q.workQ, _))

instance (w : Work) (chunk : Int) (b : Nat) : Decidable (w.Has chunk b) :=
  inferInstanceAs (Decidable (_ ∧ ∃ block ∈ w.block, _))

instance (s : QueueState) (chunk : Int) (b : Nat) : Decidable (Covered s chunk b) :=
  inferInstanceAs (Decidable (_ ∨ ∃ w ∈ s.current, _))

/-- How the static variables relate to the work handed out last. Only a JOIN
    reply leaves them as they were. -/
structure WorkTracked (s : QueueState) : Prop where
  /-- Nothing has been handed out. -/
  fresh : s.results = [] → s.queue.workCount = 0
  /-- The queue was empty. -/
  idle : s.results.head? = some none → s.queue.workChunk = -1
  sending : ∀ w ∈ s.current, 0 ≤ w.chunk →
    s.queue.workChunk = w.chunk ∧ w.block = some s.queue.workBlock ∧ s.queue.workCount = w.count
  /-- A whole chunk begins at its first block. -/
  whole : s.queue.workCount = MAXCHUNKSIZE → s.queue.workBlock = 0

theorem workTracked_step {s s' : QueueState} {c : Call} (h : s.queue.Inv) (ht : WorkTracked s)
    (hc : c.WellFormed) (hstep : s.step c = some s') : WorkTracked s' := by
  cases c with
  | enqueueJoin vers clientid =>
    obtain rfl := Option.some.inj hstep
    exact ⟨ht.fresh, ht.idle, ht.sending, ht.whole⟩
  | enqueueChunk chunk map count =>
    obtain ⟨hchunk, hcount⟩ := hc
    obtain ⟨hr, -⟩ | ⟨l', hr, -⟩ | ⟨hr, -⟩ := workQueueEnqueueChunk_cases s.queue
      chunk hcount fun e he hc => h.valid e he (hc ▸ hchunk)
    all_goals
      simp only [QueueState.step, hr, Option.bind_eq_bind, Option.bind_some, Option.some.injEq] at hstep
      subst hstep
      exact ⟨ht.fresh, ht.idle, ht.sending, ht.whole⟩
  | dequeue =>
    obtain ⟨hq, hr⟩ | ⟨wqel, behind, hq, hneg, hr⟩ | ⟨w, q', hr, hpos, hrange, hw⟩ :=
      workQueueDequeue_cases s.queue h.valid
    all_goals
      simp only [QueueState.step, hr, Option.bind_eq_bind, Option.bind_some, Option.some.injEq] at hstep
      subst hstep
    · exact ⟨by simp, by simp, by simp [QueueState.current], ht.whole⟩
    · refine ⟨by simp, by simp, fun w hw hpos => ?_, ht.whole⟩
      obtain rfl : _ = w := by simpa [QueueState.current] using hw
      simp only at hpos
      omega
    · obtain ⟨hchunk, hblock, hcount, -⟩ := hw
      refine ⟨by simp, by simp, fun w' hw' _ => ?_, fun hwhole => ?_⟩
      · obtain rfl : w = w' := by simpa [QueueState.current] using hw'
        exact ⟨hchunk, hblock, hcount⟩
      · obtain ⟨_, _, block, count, -, -, hblock', hcount', -, hfit, -⟩ := hrange
        have hwork : q'.workBlock = block := by
          rw [hblock] at hblock'
          exact Option.some.inj hblock'
        simp only [MAXCHUNKSIZE] at hwhole hfit ⊢
        omega

theorem tracked_run {calls : List Call} (hwf : ∀ c ∈ calls, c.WellFormed) {s : QueueState}
    (hrun : run QueueState.step .start calls = some s) : s.queue.Inv ∧ WorkTracked s := by
  refine run_inv (fun s : QueueState => s.queue.Inv ∧ WorkTracked s)
    (fun s c s' h hc hstep => ?_) ⟨inv_workQueueInit, ?_⟩ (meets_of_forall hwf _) hrun
  · obtain ⟨s₁, hs₁, hinv⟩ := inv_step h.1 hc
    obtain rfl : s₁ = s' := Option.some.inj (hs₁.symm.trans hstep)
    exact ⟨hinv, workTracked_step h.1 h.2 hc hstep⟩
  · constructor <;> simp [QueueState.start, workQueueInit, QueueState.current]

/-- The case in which a request is lost: it takes the fast path although the
    work handed out last was a JOIN reply, and the queue lacks a block. -/
def DropsRequest (s : QueueState) (chunk count : Int) : Prop :=
  skipsFull s.queue chunk count ∧ (∃ w ∈ s.current, w.chunk < 0) ∧ ∃ b < MAXCHUNKSIZE, ¬Queued s.queue chunk b

/-- After every history, an enqueued request is covered exactly if it does not
    take the fast path over a JOIN reply. -/
theorem enqueueChunk_covered_iff {calls : List Call} (hwf : ∀ c ∈ calls, c.WellFormed)
    {s s' : QueueState} (hrun : run QueueState.step .start calls = some s) {chunk : Int}
    {map : BlockMap} {count : Int} (hreq : (Call.enqueueChunk chunk map count).WellFormed)
    (hstep : s.step (.enqueueChunk chunk map count) = some s') :
    (∀ b ∈ map, Covered s' chunk b) ↔ ¬DropsRequest s chunk count := by
  obtain ⟨hinv, ht⟩ := tracked_run hwf hrun
  obtain ⟨hchunk, hcount⟩ := hreq
  obtain ⟨hr, hsame⟩ | ⟨l', hr, hm, hskip⟩ | ⟨hr, -, -, hskip⟩ := workQueueEnqueueChunk_cases
    s.queue chunk hcount fun e he hc => hinv.valid e he (hc ▸ hchunk)
  all_goals
    simp only [QueueState.step, hr, Option.bind_eq_bind, Option.bind_some, Option.some.injEq] at hstep
  · obtain rfl : s = s' := hstep
    rcases hsame with hzero | hskip
    · -- an empty request
      have hnone : ∀ b, b ∉ map := by
        intro b hb
        have : 0 < map.card := card_pos.mpr ⟨b, hb⟩
        omega
      refine iff_of_true (fun b hb => absurd hb (hnone b)) fun ⟨hskip, _⟩ => ?_
      have := hskip.1
      simp only [MAXCHUNKSIZE] at this
      omega
    · -- the fast path: what counts is what the sending loop is doing
      obtain ⟨hfull, hwork, hworkCount⟩ := id hskip
      have hmap : ∀ b, b ∈ map ↔ b < MAXCHUNKSIZE :=
        fun b => ⟨lt_of_mem_map, mem_of_full hcount hfull⟩
      have hwhole := ht.whole (hworkCount ▸ hfull)
      rcases hres : s.results with _ | ⟨_ | w, rest⟩
      · have := ht.fresh hres
        simp only [MAXCHUNKSIZE] at hfull
        omega
      · have := ht.idle (by rw [hres]; rfl)
        omega
      · have hcur : s.current = some w := by simp [QueueState.current, hres]
        by_cases hjoin : w.chunk < 0
        · have hcov : ∀ b, Covered s chunk b ↔ Queued s.queue chunk b := by
            refine fun b => ⟨?_, Or.inl⟩
            rintro (hq | ⟨w', hw', hc, -⟩)
            · exact hq
            · obtain rfl : w = w' := by simpa [hcur] using hw'
              omega
          have hdrop : DropsRequest s chunk count ↔ ∃ b < MAXCHUNKSIZE, ¬Queued s.queue chunk b := by
            refine ⟨fun h => h.2.2, fun h => ⟨hskip, ⟨w, hcur, hjoin⟩, h⟩⟩
          rw [hdrop]
          push Not
          exact forall_congr' fun b => by rw [hmap b]; exact imp_congr_right fun _ => hcov b
        · obtain ⟨hc, hb, hn⟩ := ht.sending w hcur (by omega)
          refine iff_of_true (fun b hb' => Or.inr ⟨w, hcur, by omega, _, hb, ?_⟩) ?_
          · have := (hmap b).mp hb'
            omega
          · rintro ⟨-, ⟨w', hw', hneg⟩, -⟩
            obtain rfl : w = w' := by simpa [hcur] using hw'
            omega
  · subst hstep
    obtain ⟨pre, wqel, wqel', post, -, rfl, -, hc', -, hmem⟩ := hm
    refine iff_of_true (fun b hb => Or.inl ⟨wqel', ?_, hc', (hmem b).mpr (Or.inr hb)⟩)
      fun h => hskip h.1
    simp
  · subst hstep
    refine iff_of_true (fun b hb => Or.inl ⟨⟨chunk, count, map⟩, ?_, rfl, hb⟩) fun h => hskip h.1
    simp

/-- A whole chunk is requested and handed out, a JOIN reply is handed out, and
    the chunk is requested again by the client that joined. -/
def lostRequest : List Call :=
  [.enqueueChunk 0 fullMap 1024, .dequeue, .enqueueJoin 1 7, .dequeue]

/-- The repeated request is dropped although nothing that will still be sent covers it. -/
theorem lostRequest_not_covered :
    (∀ c ∈ lostRequest, c.WellFormed) ∧ (Call.enqueueChunk 0 fullMap 1024).WellFormed ∧
      ∃ s s', run QueueState.step .start lostRequest = some s ∧
        s.step (.enqueueChunk 0 fullMap 1024) = some s' ∧ 5 ∈ fullMap ∧ ¬Covered s' 0 5 := by
  refine ⟨?_, wellFormed_fullMap, ?_⟩
  · rintro c (_ | ⟨_, _ | ⟨_, _ | ⟨_, _ | ⟨_, ⟨⟩⟩⟩⟩⟩)
    · exact wellFormed_fullMap
    · trivial
    · exact (by decide : (0 : Int) < 1)
    · trivial
  · have hlost : ∃ s' ∈ (run QueueState.step .start lostRequest).bind fun s =>
        s.step (.enqueueChunk 0 fullMap 1024), 5 ∈ fullMap ∧ ¬Covered s' 0 5 := by
      decide +kernel
    obtain ⟨s', hs', hcov⟩ := hlost
    obtain ⟨s, hs, hstep⟩ := Option.bind_eq_some_iff.mp hs'
    exact ⟨s, s', hs, hstep, hcov⟩

/-- A whole chunk is requested again while it is being sent. -/
theorem enqueueChunk_covered_iff_sending :
    ∃ s s', run QueueState.step .start [.enqueueChunk 0 fullMap 1024, .dequeue] = some s ∧
      s.step (.enqueueChunk 0 fullMap 1024) = some s' ∧
      ((∀ b ∈ fullMap, Covered s' 0 b) ↔ ¬DropsRequest s 0 1024) := by
  have hwf : ∀ c ∈ [.enqueueChunk 0 fullMap 1024, .dequeue], Call.WellFormed c := by
    rintro c (_ | ⟨_, _ | ⟨_, ⟨⟩⟩⟩)
    · exact wellFormed_fullMap
    · trivial
  obtain ⟨s, hrun, hinv⟩ := inv_run hwf
  obtain ⟨s', hstep, -⟩ := inv_step hinv wellFormed_fullMap
  exact ⟨s, s', hrun, hstep, enqueueChunk_covered_iff hwf hrun wellFormed_fullMap hstep⟩

end Emulab.Frisbee
