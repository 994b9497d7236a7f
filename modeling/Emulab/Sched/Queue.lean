import Emulab.Lib.Heap
import Emulab.Lib.Machine

/-! # The priority queue of the event scheduler

  The events that are pending, as a heap in an array. The head of the queue
  is slot 1; slot 0 is never used. `sched_event_dequeue` gives up the lock
  while it waits for the time of the event at the head, so events can be
  enqueued meanwhile: its steps are those between which it holds the lock.
-/

namespace Emulab.Sched

open Heap Machine

/-! ## Section 1: The queue and its operations -/

structure Timeval where
  tvSec : Int
  tvUsec : Int
deriving DecidableEq

/-- Scheduler-internal representation of an event. The pointers are numbers. -/
structure SchedEvent where
  agent : Nat
  notification : Nat
  time : Timeval
  length : Nat
  flags : Nat
deriving DecidableEq

abbrev EVENT_QUEUE_LENGTH : Nat := 1024 * 32

abbrev EVENT_QUEUE_HEAD : Nat := 1

structure EventQueue where
  eventQueue : Nat → SchedEvent
  eventQueueTail : Nat
  /-- The semaphore that the consumer waits for. -/
  eventToConsume : Nat
  waiting : Option SchedEvent
  /-- A call has returned without giving up the lock. -/
  locked : Bool
  enqueued : List SchedEvent
  /-- The events that have been taken out of the array. -/
  dequeued : List SchedEvent
  returned : List SchedEvent

/-- Whether the first event is no later than the second. -/
def eventIsMoreRecent (event1 event2 : SchedEvent) : Bool :=
  if event1.time.tvSec ≠ event2.time.tvSec then event1.time.tvSec ≤ event2.time.tvSec
  else event1.time.tvUsec ≤ event2.time.tvUsec

def noEvent : SchedEvent :=
  { agent := 0, notification := 0, time := { tvSec := 0, tvUsec := 0 }, length := 0, flags := 0 }

/-- The queue of a scheduler that has just started. -/
def schedEventInit : EventQueue where
  eventQueue := fun _ => noEvent
  eventQueueTail := 0
  eventToConsume := 0
  waiting := none
  locked := false
  enqueued := []
  dequeued := []
  returned := []

/-- The loop of `sched_event_enqueue`: an event moves up the tree. -/
def siftUp (a : Nat → SchedEvent) (child : Nat) : Nat → SchedEvent :=
  if EVENT_QUEUE_HEAD ≤ child / 2 then
    if eventIsMoreRecent (a child) (a (child / 2)) then
      siftUp (swap a (child / 2) child) (child / 2)
    else
      a
  else
    a
termination_by child
decreasing_by
  have : 1 ≤ child / 2 := by assumption
  omega

/-- The child that an event may be exchanged with. The slot behind the tail may be looked at. -/
def recentChild (a : Nat → SchedEvent) (child : Nat) : Nat :=
  if eventIsMoreRecent (a (child + 1)) (a child) then child + 1 else child

theorem recentChild_range (a : Nat → SchedEvent) (child : Nat) :
    child ≤ recentChild a child ∧ recentChild a child ≤ child + 1 := by
  unfold recentChild
  split <;> omega

/-- The loop of `sched_event_dequeue`: an event moves down the tree. -/
def siftDown (a : Nat → SchedEvent) (tail parent child : Nat) (hchild : 0 < child) : Nat → SchedEvent :=
  if child ≤ tail then
    let c := recentChild a child
    if eventIsMoreRecent (a c) (a parent) then
      siftDown (swap a parent c) tail c (c * 2) (by have := recentChild_range a child; omega)
    else
      a
  else
    a
termination_by tail + 1 - child
decreasing_by
  have := recentChild_range a child
  omega

/-- The heap property at one node. -/
def verifyNode (a : Nat → SchedEvent) (tail i : Nat) : Bool :=
  (!decide (2 * i ≤ tail) || eventIsMoreRecent (a i) (a (2 * i))) &&
    (!decide (2 * i + 1 ≤ tail) || eventIsMoreRecent (a i) (a (2 * i + 1)))

/-- The sanity check at the end of both operations: slot 0 is not used, and the heap property holds. -/
def schedEventQueueVerify (a : Nat → SchedEvent) (tail : Nat) : Bool :=
  decide ((a 0).time = { tvSec := 0, tvUsec := 0 }) && (List.range' EVENT_QUEUE_HEAD tail).all (verifyNode a tail)

def schedEventEnqueue (q : EventQueue) (event : SchedEvent) : Option EventQueue :=
  if q.eventQueueTail < EVENT_QUEUE_LENGTH - 1 then
    let tail := q.eventQueueTail + 1
    let a := siftUp (fun i => if i = tail then event else q.eventQueue i) tail
    if schedEventQueueVerify a tail then
      some { q with
        eventQueue := a
        eventQueueTail := tail
        eventToConsume := q.eventToConsume + 1
        enqueued := q.enqueued ++ [event] }
    else
      none
  else
    none

/-- The beginning of `sched_event_dequeue`. If `wait` is not set, the semaphore
    is looked at but not taken. -/
def dequeueBegin (q : EventQueue) (wait : Bool) : Option EventQueue :=
  if q.eventToConsume = 0 then
    -- a call that waits blocks, another one returns
    some q
  else
    let q := if wait then { q with eventToConsume := q.eventToConsume - 1 } else q
    if 0 < q.eventQueueTail then
      some { q with waiting := some (q.eventQueue EVENT_QUEUE_HEAD) }
    else
      none

/-- Take the head out of the array, and restore the heap property. -/
def removeHead (q : EventQueue) (event : SchedEvent) : Option EventQueue :=
  let tail := q.eventQueueTail - 1
  let a := siftDown (fun i => if i = EVENT_QUEUE_HEAD then q.eventQueue q.eventQueueTail
    else q.eventQueue i) tail EVENT_QUEUE_HEAD (EVENT_QUEUE_HEAD * 2) (by decide)
  if schedEventQueueVerify a tail then
    some { q with
      eventQueue := a
      eventQueueTail := tail
      waiting := none
      dequeued := q.dequeued ++ [q.eventQueue EVENT_QUEUE_HEAD]
      returned := q.returned ++ [event] }
  else
    none

/-- How the wait for the time of an event ends. -/
inductive Wakeup where
  | signalled
  | timedOut
  /-- The wait has failed; the call returns without giving up the lock. -/
  | failed

/-- A call of `sched_event_dequeue` that waits wakes up. -/
def dequeueWake (q : EventQueue) (event : SchedEvent) : Wakeup → Option EventQueue
  | .signalled => some { q with waiting := some (q.eventQueue EVENT_QUEUE_HEAD) }
  | .timedOut =>
    -- check to make sure the head has not changed
    if event.notification = (q.eventQueue EVENT_QUEUE_HEAD).notification then
      removeHead q event
    else
      some { q with waiting := some (q.eventQueue EVENT_QUEUE_HEAD) }
  | .failed => some { q with waiting := none, locked := true }

inductive QueueOp where
  | enqueue (event : SchedEvent)
  /-- The consumer calls `sched_event_dequeue`, unless such a call waits. -/
  | dequeue (wait : Bool)
  /-- The call that waits wakes up, if there is one. -/
  | wake (how : Wakeup)

/-- Perform a step; `none` if an assertion fails. Nothing can be done once the lock is lost. -/
def queueStep (q : EventQueue) (op : QueueOp) : Option EventQueue :=
  if q.locked then some q
  else
    match op, q.waiting with
    | .enqueue event, _ => schedEventEnqueue q event
    | .dequeue wait, none => dequeueBegin q wait
    | .dequeue _, some _ => some q
    | .wake how, some event => dequeueWake q event how
    | .wake _, none => some q

/-! ## Section 2: The order of events -/

/-- An event is no later than another. -/
def NotLater (event1 event2 : SchedEvent) : Prop := eventIsMoreRecent event1 event2 = true

theorem notLater_iff {e1 e2 : SchedEvent} : NotLater e1 e2 ↔ e1.time.tvSec < e2.time.tvSec ∨
    e1.time.tvSec = e2.time.tvSec ∧ e1.time.tvUsec ≤ e2.time.tvUsec := by
  unfold NotLater eventIsMoreRecent
  split
  · rw [decide_eq_true_eq]
    omega
  · rw [decide_eq_true_eq]
    omega

theorem notLater_refl (e : SchedEvent) : NotLater e e := by
  rw [notLater_iff]
  exact Or.inr ⟨rfl, le_rfl⟩

theorem notLater_trans (e1 e2 e3 : SchedEvent) (h12 : NotLater e1 e2) (h23 : NotLater e2 e3) : NotLater e1 e3 := by
  rw [notLater_iff] at *
  omega

theorem notLater_of_not {e1 e2 : SchedEvent} (h : ¬NotLater e1 e2) : NotLater e2 e1 := by
  rw [notLater_iff] at *
  omega

/-- The heap property of the array, for every parent and child. -/
abbrev HeapOrder (a : Nat → SchedEvent) (tail : Nat) : Prop := Ordered NotLater a tail

variable (a : Nat → SchedEvent)

/-- The check passes exactly if the heap property holds. -/
theorem verify_iff (tail : Nat) : schedEventQueueVerify a tail = true ↔
      (a 0).time = { tvSec := 0, tvUsec := 0 } ∧ HeapOrder a tail := by
  unfold schedEventQueueVerify
  rw [Bool.and_eq_true, decide_eq_true_eq, List.all_eq_true]
  refine and_congr_right fun _ => ⟨fun h i h2 hi => ?_, fun h i hi => ?_⟩
  · have hnode := h (i / 2) (by rw [List.mem_range'_1, EVENT_QUEUE_HEAD]; omega)
    simp only [verifyNode, Bool.and_eq_true, Bool.or_eq_true, Bool.not_eq_true', decide_eq_false_iff_not] at hnode
    rcases Nat.even_or_odd' i with ⟨k, rfl | rfl⟩
    · rw [Nat.mul_div_cancel_left k (by decide)] at hnode ⊢
      exact hnode.1.resolve_left (by omega)
    · rw [show (2 * k + 1) / 2 = k by omega] at hnode ⊢
      exact hnode.2.resolve_left (by omega)
  · rw [List.mem_range'_1, EVENT_QUEUE_HEAD] at hi
    simp only [verifyNode, Bool.and_eq_true, Bool.or_eq_true, Bool.not_eq_true', decide_eq_false_iff_not]
    constructor
    · by_cases hle : 2 * i ≤ tail
      · right
        have hchild := h (2 * i) (by omega) hle
        rwa [Nat.mul_div_cancel_left i (by decide)] at hchild
      · exact Or.inl hle
    · by_cases hle : 2 * i + 1 ≤ tail
      · right
        have hchild := h (2 * i + 1) (by omega) hle
        rwa [show (2 * i + 1) / 2 = i by omega] at hchild
      · exact Or.inl hle

/-! ## Section 3: The loops -/

/-- An event that moves up finds its place, and the others stay in the heap. -/
theorem siftUp_spec (child tail : Nat) (hpos : 1 ≤ child)
    (hle : child ≤ tail) (h : UpReady NotLater a tail child) :
    HeapOrder (siftUp a child) tail ∧ bag (siftUp a child) tail = bag a tail ∧ siftUp a child 0 = a 0 := by
  fun_induction siftUp a child with
  | case1 a child hparent hrecent ih =>
    have hparent : 1 ≤ child / 2 := hparent
    -- the event changes places with its parent
    obtain ⟨hord, hbag, hzero⟩ := ih (by omega) (by omega)
      (h.move notLater_trans (by omega) hle hrecent)
    refine ⟨hord, ?_, ?_⟩
    · rw [hbag, bag_swap a (by omega) (by omega)]
    · rw [hzero, swap_of_ne a (by omega) (by omega)]
  | case2 a child hparent hnot =>
    refine ⟨h.ordered fun _ => ?_, rfl, rfl⟩
    exact notLater_of_not (by simpa only [NotLater] using hnot)
  | case3 a child hroot =>
    refine ⟨h.ordered fun h2 => ?_, rfl, rfl⟩
    exact absurd (show 1 ≤ child / 2 by omega) hroot

theorem siftDown_of_lt {tail child : Nat} (parent : Nat)
    (hchild : 0 < child) (hlt : tail < child) : siftDown a tail parent child hchild = a := by
  rw [siftDown, if_neg (by omega)]

theorem recentChild_notLater {child i : Nat}
    (hi : i = child ∨ i = child + 1) : NotLater (a (recentChild a child)) (a i) := by
  unfold recentChild
  split
  · rename_i hrecent
    rcases hi with rfl | rfl
    · exact hrecent
    · exact notLater_refl _
  · rename_i hnot
    rcases hi with rfl | rfl
    · exact notLater_refl _
    · exact notLater_of_not hnot

/-- An event that moves down finds its place, and the others stay in the heap. The slot behind the tail
    holds this event itself, so if it is taken for a child, nothing changes. -/
theorem siftDown_spec (tail parent child : Nat) (hchild : 0 < child)
    (hdouble : child = parent * 2) (hstale : a (tail + 1) = a parent)
    (hle : parent ≤ tail ∨ tail = 0) (h : DownReady NotLater a tail parent) :
    HeapOrder (siftDown a tail parent child hchild) tail ∧
      bag (siftDown a tail parent child hchild) tail = bag a tail ∧
      siftDown a tail parent child hchild 0 = a 0 := by
  fun_induction siftDown a tail parent child hchild with
  | case1 a parent child hchild hin c hrecent ih =>
    have hrange : child ≤ c ∧ c ≤ child + 1 := recentChild_range a child
    have hsibling : ∀ i, i / 2 = parent → NotLater (a c) (a i) := fun i hi =>
      recentChild_notLater a (by omega)
    by_cases hc : c ≤ tail
    · -- the event changes places with the child
      have hmin : ∀ i, 2 ≤ i → i ≤ tail → i / 2 = parent → NotLater (a c) (a i) :=
        fun i _ _ hi => hsibling i hi
      have hswapped : swap a parent c (tail + 1) = swap a parent c c := by
        rw [swap_of_ne a (by omega) (by omega), swap_right, hstale]
      obtain ⟨hord, hbag, hzero⟩ := ih rfl hswapped (Or.inl hc)
        (h.move (by omega) hc hmin hrecent)
      refine ⟨hord, ?_, ?_⟩
      · rw [hbag, bag_swap a (by omega) (by omega)]
      · rw [hzero, swap_of_ne a (by omega) (by omega)]
    · -- the only child is the last event, and the stale slot has been chosen
      have hc' : c = tail + 1 := by omega
      have hsame : swap a parent c = a := swap_eq_self a (by rw [hc', hstale])
      rw [siftDown_of_lt _ _ _ (by omega), hsame]
      refine ⟨h.ordered fun i _ _ hi => ?_, rfl, rfl⟩
      rw [← hstale, ← hc']
      exact hsibling i hi
  | case2 a parent child hchild hin c hnot =>
    refine ⟨h.ordered fun i _ _ hi => ?_, rfl, rfl⟩
    exact notLater_trans _ _ _ (notLater_of_not hnot) (recentChild_notLater a (by omega))
  | case3 a parent child hchild hout =>
    refine ⟨h.ordered fun i _ hi hip => ?_, rfl, rfl⟩
    omega

/-! ## Section 4: The invariant -/

def EventQueue.queued (q : EventQueue) : Multiset SchedEvent :=
  bag q.eventQueue q.eventQueueTail

/-- What holds of the queue whenever no thread has the lock. -/
structure QueueInv (q : EventQueue) : Prop where
  /-- Slot 0 is not used. -/
  unused : (q.eventQueue 0).time = { tvSec := 0, tvUsec := 0 }
  order : HeapOrder q.eventQueue q.eventQueueTail
  /-- What has come in is either still there or has been taken out. -/
  conserved : q.queued + (q.dequeued : Multiset SchedEvent) = (q.enqueued : Multiset SchedEvent)
  /-- An event that is waited for is in the queue. -/
  waited : ∀ e ∈ q.waiting, e ∈ q.queued

variable {q : EventQueue}

theorem schedEventEnqueue_spec (h : QueueInv q) (event : SchedEvent)
    (hcap : q.eventQueueTail < EVENT_QUEUE_LENGTH - 1) :
    ∃ q', schedEventEnqueue q event = some q' ∧ QueueInv q' ∧ q'.queued = event ::ₘ q.queued ∧
      q'.dequeued = q.dequeued := by
  let put : Nat → SchedEvent := fun i => if i = q.eventQueueTail + 1 then event else q.eventQueue i
  have hput : ∀ i, i ≤ q.eventQueueTail → put i = q.eventQueue i := fun i hi =>
    if_neg (by omega)
  obtain ⟨hord, hbag, hzero⟩ := siftUp_spec put (q.eventQueueTail + 1) (q.eventQueueTail + 1)
    (by omega) le_rfl (h.order.upReady hput)
  have hverify : schedEventQueueVerify (siftUp put (q.eventQueueTail + 1)) (q.eventQueueTail + 1) = true := by
    rw [verify_iff, hzero, hput 0 (by omega)]
    exact ⟨h.unused, hord⟩
  have hqueued : bag (siftUp put (q.eventQueueTail + 1)) (q.eventQueueTail + 1) = event ::ₘ q.queued := by
    rw [hbag, bag_succ, EventQueue.queued, bag_congr fun i _ hi => hput i hi]
    congr 1
    exact if_pos rfl
  refine ⟨{ q with
    eventQueue := siftUp put (q.eventQueueTail + 1)
    eventQueueTail := q.eventQueueTail + 1
    eventToConsume := q.eventToConsume + 1
    enqueued := q.enqueued ++ [event] }, ?_, ?_, hqueued, rfl⟩
  · unfold schedEventEnqueue
    rw [if_pos hcap]
    exact if_pos hverify
  · constructor
    · exact ((verify_iff _ _).mp hverify).1
    · exact hord
    · simp only [EventQueue.queued, hqueued]
      rw [Multiset.cons_add, ← EventQueue.queued, h.conserved, ← Multiset.coe_add,
        ← Multiset.singleton_add, add_comm]
      rfl
    · intro e he
      simp only [EventQueue.queued, hqueued]
      exact Multiset.mem_cons_of_mem (h.waited e he)

theorem removeHead_spec (h : QueueInv q) (event : SchedEvent) (hpos : 0 < q.eventQueueTail) :
    ∃ q', removeHead q event = some q' ∧ QueueInv q' ∧ q.queued = q.eventQueue EVENT_QUEUE_HEAD ::ₘ q'.queued ∧
      q'.dequeued = q.dequeued ++ [q.eventQueue EVENT_QUEUE_HEAD] ∧
      q'.returned = q.returned ++ [event] := by
  let first : Nat → SchedEvent := fun i =>
    if i = EVENT_QUEUE_HEAD then q.eventQueue q.eventQueueTail else q.eventQueue i
  have hrest : ∀ i, i ≠ 1 → first i = q.eventQueue i := fun i hi => if_neg hi
  have hfirst : first 1 = q.eventQueue q.eventQueueTail := if_pos rfl
  have hstale : first (q.eventQueueTail - 1 + 1) = first 1 := by
    rw [Nat.sub_add_cancel hpos, hfirst]
    by_cases htail : q.eventQueueTail = 1
    · rw [htail, hfirst, htail]
    · exact hrest _ htail
  obtain ⟨hord, hbag, hzero⟩ := siftDown_spec first (q.eventQueueTail - 1) 1 2 (by decide) rfl
    hstale (by omega) (h.order.downReady (by omega) fun i h2 _ => hrest i (by omega))
  have hverify : schedEventQueueVerify
      (siftDown first (q.eventQueueTail - 1) 1 2 (by decide)) (q.eventQueueTail - 1) = true := by
    rw [verify_iff, hzero, hrest 0 (by decide)]
    exact ⟨h.unused, hord⟩
  have hqueued : q.queued = q.eventQueue EVENT_QUEUE_HEAD ::ₘ
      bag (siftDown first (q.eventQueueTail - 1) 1 2 (by decide)) (q.eventQueueTail - 1) := by
    rw [hbag]
    exact bag_pop hpos hfirst fun i hi => hrest i (by omega)
  refine ⟨_, if_pos hverify, ?_, hqueued, rfl, rfl⟩
  constructor
  · exact ((verify_iff _ _).mp hverify).1
  · exact hord
  · have hconserved := h.conserved
    rw [hqueued, Multiset.cons_add] at hconserved
    rw [← hconserved]
    show _ + ((q.dequeued ++ [q.eventQueue EVENT_QUEUE_HEAD] : List SchedEvent) : Multiset SchedEvent) = _
    rw [← Multiset.coe_add, ← add_assoc, ← Multiset.singleton_add, add_comm]
    rfl
  · intro e he
    exact absurd he (by simp)

/-! ## Section 5: Runs -/

/-- An operation does not find the array full or empty. -/
def WithinCapacity (q : EventQueue) : QueueOp → Prop
  | .enqueue _ => q.eventQueueTail < EVENT_QUEUE_LENGTH - 1
  | .dequeue _ => q.eventToConsume = 0 ∨ 0 < q.eventQueueTail
  | .wake _ => True

/-- From `q` to `q'` an event is taken out of the queue, and no event of the queue is earlier. What is
    returned is an event of the queue with the same notification. -/
structure TakesEarliest (q q' : EventQueue) (event returned : SchedEvent) : Prop where
  dequeued : q'.dequeued = q.dequeued ++ [event]
  queued : q.queued = event ::ₘ q'.queued
  /-- Its time is minimal. -/
  earliest : ∀ e ∈ q.queued, NotLater event e
  result : q'.returned = q.returned ++ [returned]
  mem : returned ∈ q.queued
  /-- It is the event taken out, as far as the code can tell. -/
  same : returned.notification = event.notification

theorem tail_pos_of_mem {e : SchedEvent} (h : e ∈ q.queued) : 0 < q.eventQueueTail := by
  obtain ⟨i, h1, hi, -⟩ := mem_bag.mp h
  omega

theorem head_mem (h : 0 < q.eventQueueTail) : q.eventQueue EVENT_QUEUE_HEAD ∈ q.queued :=
  mem_bag.mpr ⟨1, le_rfl, h, rfl⟩

/-- A change of the variables that the invariant does not depend on. -/
theorem QueueInv.wait (h : QueueInv q) (n : Nat) (waiting : Option SchedEvent)
    (locked : Bool) (hwaiting : ∀ e ∈ waiting, e ∈ q.queued) :
    QueueInv { q with eventToConsume := n, waiting := waiting, locked := locked } :=
  ⟨h.unused, h.order, h.conserved, hwaiting⟩

theorem dequeueWake_spec (h : QueueInv q) {event : SchedEvent} (hwait : q.waiting = some event) (how : Wakeup) :
    ∃ q', dequeueWake q event how = some q' ∧ QueueInv q' ∧ (q'.dequeued = q.dequeued ∧ q'.queued = q.queued ∨
        TakesEarliest q q' (q.eventQueue EVENT_QUEUE_HEAD) event) := by
  have hmem : event ∈ q.queued := h.waited event hwait
  have hpos : 0 < q.eventQueueTail := tail_pos_of_mem hmem
  have hhead : ∀ e ∈ some (q.eventQueue EVENT_QUEUE_HEAD), e ∈ q.queued := by
    intro e he
    rw [← Option.mem_some.mp he]
    exact head_mem hpos
  cases how with
  | signalled => exact ⟨_, rfl, h.wait _ _ _ hhead, Or.inl ⟨rfl, rfl⟩⟩
  | failed => exact ⟨_, rfl, h.wait _ _ _ (by simp), Or.inl ⟨rfl, rfl⟩⟩
  | timedOut =>
    by_cases hsame : event.notification = (q.eventQueue EVENT_QUEUE_HEAD).notification
    · obtain ⟨q', hremove, hinv, hqueued, hdequeued, hreturned⟩ := removeHead_spec h event hpos
      refine ⟨q', ?_, hinv, Or.inr ⟨hdequeued, hqueued, ?_, hreturned, hmem, hsame⟩⟩
      · unfold dequeueWake
        rw [if_pos hsame]
        exact hremove
      · exact h.order.root_le_bag notLater_refl notLater_trans
    · refine ⟨_, if_neg hsame, h.wait _ _ _ hhead, Or.inl ⟨rfl, rfl⟩⟩

theorem queueStep_spec (h : QueueInv q) {op : QueueOp} (hcap : WithinCapacity q op) :
    ∃ q', queueStep q op = some q' ∧ QueueInv q' ∧
      (q'.dequeued = q.dequeued ∨ ∃ event returned, TakesEarliest q q' event returned) := by
  unfold queueStep
  by_cases hlocked : q.locked = true
  · rw [if_pos hlocked]
    exact ⟨q, rfl, h, Or.inl rfl⟩
  rw [if_neg hlocked]
  cases op with
  | enqueue event =>
    obtain ⟨q', henq, hinv, -, hdequeued⟩ := schedEventEnqueue_spec h event hcap
    exact ⟨q', henq, hinv, Or.inl hdequeued⟩
  | dequeue wait =>
    cases hwait : q.waiting with
    | some event => exact ⟨q, rfl, h, Or.inl rfl⟩
    | none =>
      show ∃ q', dequeueBegin q wait = some q' ∧ _
      unfold dequeueBegin
      by_cases hzero : q.eventToConsume = 0
      · rw [if_pos hzero]
        exact ⟨q, rfl, h, Or.inl rfl⟩
      · have hpos : 0 < q.eventQueueTail := hcap.resolve_left hzero
        have hhead : ∀ e ∈ some (q.eventQueue EVENT_QUEUE_HEAD), e ∈ q.queued := by
          intro e he
          rw [← Option.mem_some.mp he]
          exact head_mem hpos
        rw [if_neg hzero]
        cases wait with
        | true => exact ⟨_, if_pos hpos, h.wait _ _ q.locked hhead, Or.inl rfl⟩
        | false => exact ⟨_, if_pos hpos, h.wait _ _ q.locked hhead, Or.inl rfl⟩
  | wake how =>
    cases hwait : q.waiting with
    | none => exact ⟨q, rfl, h, Or.inl rfl⟩
    | some event =>
      obtain ⟨q', hwake, hinv, hres⟩ := dequeueWake_spec h hwait how
      refine ⟨q', hwake, hinv, ?_⟩
      rcases hres with ⟨hdequeued, -⟩ | htakes
      · exact Or.inl hdequeued
      · exact Or.inr ⟨_, _, htakes⟩

theorem queueInv_init : QueueInv schedEventInit := by
  refine ⟨rfl, ?_, rfl, by simp [schedEventInit]⟩
  intro i h2 hi
  exact absurd hi (by simp only [schedEventInit]; omega)

def eventAt (tvSec : Int) : SchedEvent := { noEvent with time := { tvSec := tvSec, tvUsec := 0 } }

/-- A stale slot behind the tail is looked at, and changes nothing. -/
example : (run queueStep schedEventInit
    [.enqueue (eventAt 3), .enqueue (eventAt 1), .enqueue (eventAt 2), .dequeue true,
      .wake .timedOut]).map (fun q => ((List.range 3).map fun i => (q.eventQueue i).time.tvSec,
        q.returned.map fun e => e.time.tvSec)) = some ([0, 2, 3], [1]) := by
  decide +kernel

end Emulab.Sched
