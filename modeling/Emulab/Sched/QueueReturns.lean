import Emulab.Sched.Queue

/-! # What `sched_event_dequeue` leaves behind

  A finer view of the queue: an enqueue gives up the lock before it posts the
  semaphore, and a dequeue may be called without waiting, be interrupted while
  it waits for the semaphore, or be told that the timed wait has failed. For
  every return it is written down in what state the lock, the semaphore and
  the queue are left.
-/

namespace Emulab.Sched

open Heap Machine

/-! ## Section 1: Threads -/

/-- A return of `sched_event_dequeue`. -/
structure DequeueReturn where
  result : Int
  /-- What is in `*event`, after a success. -/
  event : Option SchedEvent
  /-- What has been taken out of the array. -/
  removed : Option SchedEvent
  lockHeld : Bool
  semaphore : Nat
  /-- How many enqueues have given up the lock and are about to post the semaphore. -/
  posting : Nat
  queued : Nat
deriving DecidableEq

/-- The queue, the threads that enqueue and the one that dequeues. -/
structure QueueThreads where
  queue : EventQueue
  posting : Nat
  /-- The call that waits has decremented the semaphore. -/
  taken : Bool
  returns : List DequeueReturn

def QueueThreads.init : QueueThreads := ⟨schedEventInit, 0, false, []⟩

def QueueThreads.ret (w : QueueThreads) (result : Int) (event removed : Option SchedEvent) : QueueThreads :=
  { w with returns := w.returns ++ [{
      result := result
      event := event
      removed := removed
      lockHeld := w.queue.locked
      semaphore := w.queue.eventToConsume
      posting := w.posting
      queued := w.queue.eventQueueTail }] }

/-- `sched_event_enqueue`, from `pthread_mutex_lock` to `pthread_mutex_unlock`. -/
def QueueThreads.insert (w : QueueThreads) (event : SchedEvent) : Option QueueThreads :=
  (schedEventEnqueue w.queue event).map fun q =>
    { w with
      queue := { q with eventToConsume := w.queue.eventToConsume }
      posting := w.posting + 1 }

/-- `sem_post` in `sched_event_enqueue`, by one of the threads that have got there. -/
def QueueThreads.post (w : QueueThreads) : QueueThreads :=
  if w.posting = 0 then w
  else
    { w with
      queue := { w.queue with eventToConsume := w.queue.eventToConsume + 1 }
      posting := w.posting - 1 }

/-- `sched_event_dequeue`, until it waits for the time of the head. What
    `sem_wait` returns is not looked at. -/
def QueueThreads.dequeue (w : QueueThreads) (wait interrupted : Bool) : Option QueueThreads :=
  if wait && interrupted then
    if 0 < w.queue.eventQueueTail then
      some { w with
        queue := { w.queue with waiting := some (w.queue.eventQueue EVENT_QUEUE_HEAD) }
        taken := false }
    else
      none
  else if w.queue.eventToConsume = 0 then
    -- blocked, or the queue is empty
    if wait then some w else some (w.ret 0 none none)
  else
    (dequeueBegin w.queue wait).map fun q => { w with queue := q, taken := wait }

/-- The call that waits wakes up, and returns if it was for the time or an error. -/
def QueueThreads.wake (w : QueueThreads) (event : SchedEvent) (how : Wakeup) : Option QueueThreads :=
  let head := w.queue.eventQueue EVENT_QUEUE_HEAD
  (dequeueWake w.queue event how).map fun q =>
    let w' := { w with queue := q }
    match how with
    | .signalled => w'
    | .timedOut =>
      if event.notification = head.notification then w'.ret 1 (some event) (some head) else w'
    | .failed => w'.ret (-1) none none

/-- What can happen next. -/
inductive QueueAct where
  | insert (event : SchedEvent)
  | post
  | dequeue (wait interrupted : Bool)
  /-- The consumer passes a null pointer. -/
  | dequeueNull
  | wake (how : Wakeup)

/-- `none` if an assertion fails. There is one consumer, and a lock that is not
    released is not got again. -/
def threadsStep (w : QueueThreads) (act : QueueAct) : Option QueueThreads :=
  match act, w.queue.waiting with
  | .insert event, _ => if w.queue.locked then some w else w.insert event
  | .post, _ => some w.post
  | .dequeue wait interrupted, none =>
    if w.queue.locked then some w else w.dequeue wait interrupted
  | .dequeueNull, none => some (w.ret 0 none none)
  | .wake how, some event => w.wake event how
  | .dequeue _ _, some _ => some w
  | .dequeueNull, some _ => some w
  | .wake _, none => some w

/-! ## Section 2: Returns -/

/-- The event that is returned is the one that is removed, the lock is released and the
    semaphore counts the events that are queued, with the posts that are under way. -/
def DequeueReturn.Right (r : DequeueReturn) : Prop :=
  r.event = r.removed ∧ r.lockHeld = false ∧ r.semaphore + r.posting = r.queued

instance (r : DequeueReturn) : Decidable r.Right := instDecidableAnd

def QueueThreads.AllRight (w : QueueThreads) : Prop := ∀ r ∈ w.returns, r.Right

/-- A step that no return is wrong after: the timed wait does not fail, and when the time
    has come for the event that was at the head, the call has decremented the semaphore,
    and the head is still this event or has another notification. -/
def Sound (w : QueueThreads) (act : QueueAct) : Prop :=
  match act, w.queue.waiting with
  | .wake .failed, some _ => False
  | .wake .timedOut, some event =>
    event.notification = (w.queue.eventQueue EVENT_QUEUE_HEAD).notification →
      w.taken = true ∧ event = w.queue.eventQueue EVENT_QUEUE_HEAD
  | _, _ => True

/-- What the call that waits has taken from the semaphore. -/
def QueueThreads.pending (w : QueueThreads) : Nat :=
  if w.queue.waiting.isSome ∧ w.taken = true then 1 else 0

/-- The semaphore counts what is queued. -/
def QueueThreads.Balanced (w : QueueThreads) : Prop :=
  w.queue.locked = false ∧ w.queue.eventToConsume + w.posting + w.pending = w.queue.eventQueueTail

structure QueueThreads.Inv (w : QueueThreads) : Prop where
  queue : QueueInv w.queue
  balanced : w.AllRight → w.Balanced

theorem inv_init : QueueThreads.init.Inv := ⟨queueInv_init, fun _ => ⟨rfl, rfl⟩⟩

theorem allRight_ret {w : QueueThreads} {result : Int} {event removed : Option SchedEvent} :
    (w.ret result event removed).AllRight ↔ w.AllRight ∧ event = removed ∧ w.queue.locked = false ∧
      w.queue.eventToConsume + w.posting = w.queue.eventQueueTail := by
  unfold QueueThreads.AllRight QueueThreads.ret
  rw [List.forall_mem_append, List.forall_mem_singleton]
  rfl

theorem tail_pos_of_waiting {q : EventQueue} (h : QueueInv q) {event : SchedEvent}
    (hwait : q.waiting = some event) : 0 < q.eventQueueTail :=
  tail_pos_of_mem (h.waited event hwait)

theorem QueueInv.waitForHead {q : EventQueue} (h : QueueInv q) (n : Nat) (hpos : 0 < q.eventQueueTail) :
    QueueInv { q with eventToConsume := n, waiting := some (q.eventQueue EVENT_QUEUE_HEAD) } := by
  apply h.wait n _ q.locked
  intro e he
  rw [← Option.mem_some.mp he]
  exact head_mem hpos

/-! ## Section 3: Steps -/

section Steps

variable {w w' : QueueThreads}

variable {event : SchedEvent}

theorem schedEventEnqueue_fields {q q' : EventQueue} (h : schedEventEnqueue q event = some q') :
    q.eventQueueTail < EVENT_QUEUE_LENGTH - 1 ∧ q'.eventQueueTail = q.eventQueueTail + 1 ∧
      q'.waiting = q.waiting ∧ q'.locked = q.locked := by
  unfold schedEventEnqueue at h
  split at h
  · rename_i hcap
    dsimp only at h
    split at h
    · cases h
      exact ⟨hcap, rfl, rfl, rfl⟩
    · cases h
  · cases h

theorem insert_step (h : w.Inv) (hstep : w.insert event = some w') : w'.Inv ∧ w'.returns = w.returns := by
  obtain ⟨q, hq, rfl⟩ := Option.map_eq_some_iff.mp hstep
  obtain ⟨hcap, htail, hwaiting, hlocked⟩ := schedEventEnqueue_fields hq
  obtain ⟨q', hq', hinv, -⟩ := schedEventEnqueue_spec h.queue event hcap
  cases hq.symm.trans hq'
  refine ⟨⟨hinv.wait _ q.waiting q.locked hinv.waited, fun hright => ?_⟩, rfl⟩
  obtain ⟨hfree, hcount⟩ := h.balanced hright
  refine ⟨hlocked.trans hfree, ?_⟩
  unfold QueueThreads.pending at hcount ⊢
  dsimp only
  rw [hwaiting, htail]
  omega

theorem post_step (h : w.Inv) : w.post.Inv ∧ w.post.returns = w.returns := by
  unfold QueueThreads.post
  split
  · exact ⟨h, rfl⟩
  · rename_i hposting
    refine ⟨⟨h.queue.wait _ w.queue.waiting w.queue.locked h.queue.waited, fun hright => ?_⟩, rfl⟩
    obtain ⟨hfree, hcount⟩ := h.balanced hright
    refine ⟨hfree, ?_⟩
    unfold QueueThreads.pending at hcount ⊢
    dsimp only
    omega

/-- A return without an event, of a call that has not got the semaphore. -/
theorem ret_zero (h : w.Inv) (hwait : w.queue.waiting = none) :
    (w.ret 0 none none).Inv ∧ (w.AllRight → (w.ret 0 none none).AllRight) := by
  refine ⟨⟨h.queue, fun hright => h.balanced (allRight_ret.mp hright).1⟩, fun hright => ?_⟩
  obtain ⟨hfree, hcount⟩ := h.balanced hright
  unfold QueueThreads.pending at hcount
  rw [hwait] at hcount
  exact allRight_ret.mpr ⟨hright, rfl, hfree, by simpa using hcount⟩

theorem dequeue_step (h : w.Inv) (hwait : w.queue.waiting = none) {wait interrupted : Bool}
    (hstep : w.dequeue wait interrupted = some w') : w'.Inv ∧ (w.AllRight → w'.AllRight) := by
  unfold QueueThreads.dequeue at hstep
  split at hstep
  · -- interrupted
    split at hstep
    · rename_i hpos
      cases hstep
      refine ⟨⟨h.queue.waitForHead _ hpos, fun hright => ?_⟩, id⟩
      obtain ⟨hfree, hcount⟩ := h.balanced hright
      refine ⟨hfree, ?_⟩
      unfold QueueThreads.pending at hcount ⊢
      rw [hwait] at hcount
      simpa using hcount
    · cases hstep
  · split at hstep
    · split at hstep
      · cases hstep
        exact ⟨h, id⟩
      · cases hstep
        exact ret_zero h hwait
    · rename_i hsem
      obtain ⟨q, hq, rfl⟩ := Option.map_eq_some_iff.mp hstep
      unfold dequeueBegin at hq
      rw [if_neg hsem] at hq
      cases wait with
      | true =>
        simp only [if_true] at hq
        split at hq
        · rename_i hpos
          cases hq
          refine ⟨⟨h.queue.waitForHead _ hpos, fun hright => ?_⟩, id⟩
          obtain ⟨hfree, hcount⟩ := h.balanced hright
          refine ⟨hfree, ?_⟩
          -- what the semaphore has lost is pending
          unfold QueueThreads.pending at hcount ⊢
          rw [hwait] at hcount
          simp only [Option.isSome_none, Bool.false_eq_true, false_and, if_false, add_zero] at hcount
          simp only [Option.isSome_some, and_self, if_true]
          omega
        · cases hq
      | false =>
        simp only [Bool.false_eq_true, if_false] at hq
        split at hq
        · rename_i hpos
          cases hq
          refine ⟨⟨h.queue.waitForHead _ hpos, fun hright => ?_⟩, id⟩
          obtain ⟨hfree, hcount⟩ := h.balanced hright
          refine ⟨hfree, ?_⟩
          unfold QueueThreads.pending at hcount ⊢
          rw [hwait] at hcount
          simpa using hcount
        · cases hq

theorem wait_again (h : w.Inv) (hwait : w.queue.waiting = some event) : ({ w with queue := { w.queue with
      waiting := some (w.queue.eventQueue EVENT_QUEUE_HEAD) } } : QueueThreads).Inv := by
  refine ⟨h.queue.waitForHead _ (tail_pos_of_waiting h.queue hwait), fun hright => ?_⟩
  obtain ⟨hfree, hcount⟩ := h.balanced hright
  refine ⟨hfree, ?_⟩
  unfold QueueThreads.pending at hcount ⊢
  rw [hwait] at hcount
  exact hcount

theorem removeHead_fields {q q' : EventQueue} (h : removeHead q event = some q') :
    q'.eventQueueTail = q.eventQueueTail - 1 ∧ q'.waiting = none ∧ q'.locked = q.locked ∧
      q'.eventToConsume = q.eventToConsume := by
  unfold removeHead at h
  dsimp only at h
  split at h
  · cases h
    exact ⟨rfl, rfl, rfl, rfl⟩
  · cases h

/-- The call wakes up. -/
theorem wake_step (h : w.Inv) (hwait : w.queue.waiting = some event)
    {how : Wakeup} (hstep : w.wake event how = some w') :
    w'.Inv ∧ (w.AllRight → (w'.AllRight ↔ Sound w (.wake how))) := by
  obtain ⟨q, hq, rfl⟩ := Option.map_eq_some_iff.mp hstep
  obtain ⟨q', hq', hinv, -⟩ := dequeueWake_spec h.queue hwait how
  cases hq.symm.trans hq'
  cases how with
  | signalled =>
    cases hq
    refine ⟨wait_again h hwait, fun hright => ?_⟩
    simp only [Sound, iff_true]
    exact hright
  | failed =>
    cases hq
    -- the lock has been lost
    have hwrong : ¬ (({ w with queue := { w.queue with waiting := none, locked := true } } :
        QueueThreads).ret (-1) none none).AllRight := by
      intro hright
      have hfree := (allRight_ret.mp hright).2.2.1
      cases hfree
    refine ⟨⟨hinv, fun hright => absurd hright hwrong⟩, fun _ => ?_⟩
    simp only [Sound, hwait, iff_false]
    exact hwrong
  | timedOut =>
    by_cases hsame : event.notification = (w.queue.eventQueue EVENT_QUEUE_HEAD).notification
    · have hremove : removeHead w.queue event = some q := by
        rw [dequeueWake, if_pos hsame] at hq
        exact hq
      obtain ⟨htail, hwaiting, hlocked, hsem⟩ := removeHead_fields hremove
      have hpos := tail_pos_of_waiting h.queue hwait
      dsimp only
      rw [if_pos hsame]
      -- the queue has lost one event, and the semaphore one count if it was taken
      have hcount : w.AllRight → (q.locked = false ∧ q.eventToConsume + w.posting = q.eventQueueTail ↔
            w.taken = true) := by
        intro hright
        obtain ⟨hfree, hcount⟩ := h.balanced hright
        unfold QueueThreads.pending at hcount
        rw [hwait] at hcount
        rw [hlocked, hsem, htail]
        by_cases htaken : w.taken = true
        · simp only [Option.isSome_some, htaken, and_self, if_true] at hcount
          simp only [hfree, htaken, iff_true, true_and]
          omega
        · have hnot : w.taken = false := by simpa using htaken
          simp only [hnot, Bool.false_eq_true, and_false, if_false] at hcount
          simp only [hnot, Bool.false_eq_true, iff_false]
          omega
      have hiff : ∀ w₁ : QueueThreads, w₁ = { w with queue := q } →
          ((w₁.ret 1 (some event) (some (w.queue.eventQueue EVENT_QUEUE_HEAD))).AllRight ↔
            w.AllRight ∧ event = w.queue.eventQueue EVENT_QUEUE_HEAD ∧
              q.locked = false ∧ q.eventToConsume + w.posting = q.eventQueueTail) := by
        intro w₁ hw₁
        rw [allRight_ret, Option.some_inj, hw₁]
        rfl
      refine ⟨⟨hinv, fun hright => ?_⟩, fun hright => ?_⟩
      · obtain ⟨-, -, hfree, hsum⟩ := (hiff _ rfl).mp hright
        refine ⟨hfree, ?_⟩
        unfold QueueThreads.pending QueueThreads.ret
        dsimp only
        rw [hwaiting]
        simpa using hsum
      · rw [hiff _ rfl, hcount hright]
        simp only [Sound, hwait, hsame, hright, true_and, forall_const]
        exact and_comm
    · have hq : q = { w.queue with waiting := some (w.queue.eventQueue EVENT_QUEUE_HEAD) } := by
        rw [dequeueWake, if_neg hsame] at hq
        exact (Option.some.inj hq).symm
      dsimp only
      rw [if_neg hsame, hq]
      refine ⟨wait_again h hwait, fun hright => ?_⟩
      simp only [Sound, hwait, hsame, false_imp_iff, iff_true]
      exact hright

theorem threadsStep_spec (h : w.Inv) {act : QueueAct} (hstep : threadsStep w act = some w') :
    w'.Inv ∧ (w.AllRight → (w'.AllRight ↔ Sound w act)) := by
  have hidle (hsame : w = w') (hsound : Sound w act) : w'.Inv ∧ (w.AllRight → (w'.AllRight ↔ Sound w act)) := by
    subst hsame
    exact ⟨h, fun hright => iff_of_true hright hsound⟩
  have hkeeps (hspec : w'.Inv ∧ (w.AllRight → w'.AllRight)) (hsound : Sound w act) :
      w'.Inv ∧ (w.AllRight → (w'.AllRight ↔ Sound w act)) :=
    ⟨hspec.1, fun hright => iff_of_true (hspec.2 hright) hsound⟩
  unfold threadsStep at hstep
  cases act with
  | insert event =>
    dsimp only at hstep
    split at hstep
    · exact hidle (Option.some.inj hstep) trivial
    · obtain ⟨hinv, hreturns⟩ := insert_step h hstep
      refine hkeeps ⟨hinv, fun hright => ?_⟩ trivial
      unfold QueueThreads.AllRight
      rw [hreturns]
      exact hright
  | post =>
    cases hstep
    obtain ⟨hinv, hreturns⟩ := post_step h
    refine hkeeps ⟨hinv, fun hright => ?_⟩ trivial
    unfold QueueThreads.AllRight
    rw [hreturns]
    exact hright
  | dequeue wait interrupted =>
    cases hwait : w.queue.waiting with
    | none =>
      rw [hwait] at hstep
      dsimp only at hstep
      split at hstep
      · exact hidle (Option.some.inj hstep) trivial
      · exact hkeeps (dequeue_step h hwait hstep) trivial
    | some event =>
      rw [hwait] at hstep
      exact hidle (Option.some.inj hstep) trivial
  | dequeueNull =>
    cases hwait : w.queue.waiting with
    | none =>
      rw [hwait] at hstep
      cases hstep
      exact hkeeps (ret_zero h hwait) trivial
    | some event =>
      rw [hwait] at hstep
      exact hidle (Option.some.inj hstep) trivial
  | wake how =>
    cases hwait : w.queue.waiting with
    | none =>
      rw [hwait] at hstep
      refine hidle (Option.some.inj hstep) ?_
      unfold Sound
      rw [hwait]
      cases how <;> trivial
    | some event =>
      rw [hwait] at hstep
      exact wake_step h hwait hstep

/-- No assertion fails when a call wakes up. -/
theorem sound_of_fail (h : w.Inv) {act : QueueAct} (hstep : threadsStep w act = none) : Sound w act := by
  cases act with
  | wake how =>
    unfold threadsStep at hstep
    cases hwait : w.queue.waiting with
    | none =>
      rw [hwait] at hstep
      cases hstep
    | some event =>
      rw [hwait] at hstep
      obtain ⟨q, hq, -⟩ := dequeueWake_spec h.queue hwait how
      have hnone : dequeueWake w.queue event how = none := Option.map_eq_none_iff.mp hstep
      rw [hq] at hnone
      cases hnone
  | insert event => trivial
  | post => trivial
  | dequeue wait interrupted => trivial
  | dequeueNull => trivial

end Steps

/-! ## Section 4: Runs -/

/-- In every state of a run all returns have been right exactly if every step is sound. -/
theorem schedEventDequeue_right_iff (acts : List QueueAct) :
    (∀ pre w, pre <+: acts → run threadsStep .init pre = some w → w.AllRight) ↔
      Meets threadsStep Sound .init acts :=
  prefix_iff_meets QueueThreads.Inv QueueThreads.AllRight (fun _ _ _ h hstep => (threadsStep_spec h hstep).1)
    (fun _ _ _ h hright hstep => (threadsStep_spec h hstep).2 hright)
    (fun _ _ h hstep => sound_of_fail h hstep) inv_init
    (fun _ hr => absurd hr List.not_mem_nil) acts

/-- An earlier event with the same notification becomes the head when the time of the first
    has come, before the call has the lock again. -/
def sameNotification : List QueueAct :=
  [.insert (eventAt 2), .post, .dequeue true false, .insert (eventAt 1), .post, .wake .timedOut]

def failedWait : List QueueAct := [.insert (eventAt 2), .post, .dequeue true false, .wake .failed]

def withoutWait : List QueueAct :=
  [.insert (eventAt 2), .post, .dequeue false false, .wake .timedOut]

/-- The second event is lost and the first one is still there after it has been returned;
    the lock is held after an error; the semaphore counts an event that is gone. -/
theorem schedEventDequeue_wrong : ((run threadsStep .init sameNotification).map fun w => w.returns.map fun r =>
      (r.event, r.removed, decide r.Right)) = some [(some (eventAt 2), some (eventAt 1), false)] ∧
    ((run threadsStep .init failedWait).map fun w => w.returns.map fun r =>
      (r.lockHeld, r.semaphore, r.queued, decide r.Right)) = some [(true, 0, 1, false)] ∧
    ((run threadsStep .init withoutWait).map fun w => w.returns.map fun r =>
      (r.lockHeld, r.semaphore, r.queued, decide r.Right)) = some [(false, 1, 0, false)] := by
  refine ⟨?_, ?_, ?_⟩
  · decide +kernel
  · decide +kernel
  · decide +kernel

end Emulab.Sched
