import Emulab.Sched.Queue

/-! # Local agents of the event scheduler

  An agent that is managed by the scheduler itself has a queue of events, and
  a thread that handles them, the looper. The looper is started when an event
  is queued and none is running. It gives up when it has waited too long for
  an event. The queue and the flags are protected by a mutex: a step is what
  is done between locking and unlocking it, or between waits.
-/

namespace Emulab.Sched

open Machine

/-! ## Section 1: The agent -/

/-- What is used here of `struct _local_agent`. -/
structure LocalAgent where
  /-- `LAF_IMMEDIATE`: events are handled by the caller. -/
  immediate : Bool
  /-- `LAF_LOOPING`: the agent is alive and in its event loop. -/
  looping : Bool
  queue : List SchedEvent

/-- `local_agent_init`, with the flag that the caller sets. -/
def localAgentInit (immediate : Bool) : LocalAgent :=
  { immediate := immediate, looping := false, queue := [] }

/-- What a call of `local_agent_queue` has done when it gives up the lock. -/
structure Queued where
  la : LocalAgent
  /-- The event that was handled by the caller. -/
  handed : Option SchedEvent
  /-- The event has been put on the queue, so that the condition is to be signalled. -/
  added : Bool
  started : Bool
  /-- What is left to the caller. -/
  se : SchedEvent

/-- Queue an event. `nomem` and `nothread` say whether `malloc` and
    `pthread_create` fail. -/
def localAgentQueue (la : LocalAgent) (se : SchedEvent) (nomem nothread : Bool) : Option Queued :=
  if 1 ≤ se.length then
    if la.immediate then
      some { la := la, handed := some se, added := false, started := false, se := se }
    else if nomem then
      some { la := la, handed := none, added := false, started := false, se := se }
    else
      let started := !la.looping && !nothread
      some {
        la := { la with queue := la.queue ++ [se], looping := la.looping || started }
        handed := none
        added := true
        started := started
        -- the notification is now owned by the agent
        se := { se with agent := 0, notification := 0, length := 0 } }
  else
    none

/-- What a looper thread does. -/
inductive Looper where
  /-- It is about to call `local_agent_dequeue`. -/
  | ready
  /-- It waits for the condition, and may have been woken. -/
  | waiting (woken : Bool)
  | handling (se : SchedEvent)
  /-- Its wait has timed out, and it will not come back. -/
  | exiting
deriving DecidableEq

/-- The looper is in its event loop. -/
def Looper.running (l : Looper) : Bool := l ≠ .exiting

structure AgentState where
  la : LocalAgent
  loopers : List Looper
  /-- Callers that have added an event and not yet signalled the condition. -/
  signals : Nat
  enqueued : List SchedEvent
  /-- The events that the agent has been given. -/
  handed : List SchedEvent

/-- The steps of the callers and of the loopers. -/
inductive AgentAct where
  /-- A call of `local_agent_queue`, up to where it gives up the lock. -/
  | queue (se : SchedEvent) (nomem nothread : Bool)
  | signal
  /-- Looper `t` calls `local_agent_dequeue`. -/
  | dequeue (t : Nat)
  /-- The wait of looper `t` ends with the lock held, whether or not it was signalled. -/
  | wake (t : Nat)
  /-- The wait of looper `t` ends with `ETIMEDOUT`, with the lock held. -/
  | timeout (t : Nat)
  | finish (t : Nat)
deriving DecidableEq

/-- The loop in `local_agent_dequeue`, up to where the lock is given up. -/
def AgentState.look (s : AgentState) (t : Nat) : Option AgentState :=
  match s.la.queue with
  | [] => some { s with loopers := s.loopers.set t (.waiting false) }
  | se :: queue =>
    if 0 < se.length then
      some { s with
        la := { s.la with queue := queue }
        loopers := s.loopers.set t (.handling se)
        handed := s.handed ++ [se] }
    else
      none

/-- Wake one of the threads that wait for the condition. -/
def signalOne : List Looper → List Looper
  | [] => []
  | .waiting false :: ls => .waiting true :: ls
  | l :: ls => l :: signalOne ls

/-- A step; one that is not possible changes nothing. -/
def AgentState.step (s : AgentState) : AgentAct → Option AgentState
  | .queue se nomem nothread => do
    let r ← localAgentQueue s.la se nomem nothread
    some {
      la := r.la
      loopers := if r.started then s.loopers ++ [.ready] else s.loopers
      signals := if r.added then s.signals + 1 else s.signals
      enqueued := if r.added || r.handed.isSome then s.enqueued ++ [se] else s.enqueued
      handed := s.handed ++ r.handed.toList }
  | .signal =>
    if 0 < s.signals then
      some { s with loopers := signalOne s.loopers, signals := s.signals - 1 }
    else
      some s
  | .dequeue t => if s.loopers[t]? = some .ready then s.look t else some s
  | .wake t =>
    match s.loopers[t]? with
    | some (.waiting _) => s.look t
    | _ => some s
  | .timeout t =>
    match s.loopers[t]? with
    | some (.waiting _) =>
      some { s with
        la := { s.la with looping := false }
        loopers := s.loopers.set t .exiting }
    | _ => some s
  | .finish t =>
    match s.loopers[t]? with
    | some (.handling _) => some { s with loopers := s.loopers.set t .ready }
    | _ => some s

/-- An agent that has just been initialized. -/
def AgentState.start (immediate : Bool) : AgentState :=
  { la := localAgentInit immediate, loopers := [], signals := 0, enqueued := [], handed := [] }

/-! ## Section 2: The invariant -/

/-- How many loopers are in their event loop. -/
def AgentState.running (s : AgentState) : Nat := s.loopers.countP Looper.running

structure AgentState.Inv (s : AgentState) : Prop where
  /-- The flag says whether there is a looper, and there is one at most. -/
  looping : s.running = if s.la.looping then 1 else 0
  /-- The events are handed over in the order in which they were queued. -/
  order : s.enqueued = s.handed ++ s.la.queue
  length : ∀ se ∈ s.la.queue, 0 < se.length
  /-- A caller that handles events itself puts none on the queue. -/
  immediate : s.la.immediate = true → s.la.queue = []
  /-- Where there are events, a looper that sleeps is going to be woken. -/
  signalled : s.la.queue ≠ [] → .waiting false ∈ s.loopers → 0 < s.signals

theorem inv_start (immediate : Bool) : (AgentState.start immediate).Inv where
  looping := rfl
  order := rfl
  length := by simp [AgentState.start, localAgentInit]
  immediate _ := rfl
  signalled h := absurd rfl h

theorem countP_set {ls : List Looper} {t : Nat} {l : Looper} (h : ls[t]? = some l) (l' : Looper) :
    (ls.set t l').countP Looper.running + l.running.toNat = ls.countP Looper.running + l'.running.toNat := by
  induction ls generalizing t with
  | nil => simp at h
  | cons a ls ih =>
    cases t with
    | zero =>
      obtain rfl : a = l := by simpa using h
      cases ha : a.running <;> cases hl : l'.running <;> simp [ha, hl]
    | succ t =>
      have := ih (by simpa using h)
      simp only [List.set_cons_succ, List.countP_cons]
      omega

theorem running_signalOne (ls : List Looper) :
    (signalOne ls).countP Looper.running = ls.countP Looper.running := by
  fun_induction signalOne ls with
  | case1 => rfl
  | case2 ls => rfl
  | case3 l ls _ ih => rw [List.countP_cons, List.countP_cons, ih]

theorem mem_set_running {ls : List Looper} {t : Nat} {l l' x : Looper} (h : ls[t]? = some l)
    (hl : l.running = true) (hone : ls.countP Looper.running ≤ 1) (hx : x ∈ ls.set t l')
    (hxr : x.running = true) : x = l' := by
  have hcount := countP_set h .exiting
  rw [hl] at hcount
  have hnone : (ls.set t .exiting).countP Looper.running = 0 := by
    have : Looper.exiting.running.toNat = 0 := rfl
    have : true.toNat = 1 := rfl
    omega
  obtain ⟨i, hi, rfl⟩ := List.getElem_of_mem hx
  rw [List.length_set] at hi
  by_cases hit : t = i
  · subst hit
    rw [List.getElem_set_self]
  · -- it would be running beside looper `t`
    rw [List.getElem_set_ne hit] at hxr
    have hmem : ls[i] ∈ ls.set t .exiting := by
      rw [← List.getElem_set_ne hit (a := .exiting) (by simpa using hi)]
      exact List.getElem_mem _
    have := List.countP_eq_zero.mp hnone _ hmem
    contradiction

theorem not_mem_signalOne {ls : List Looper} (hone : ls.countP Looper.running ≤ 1) :
    .waiting false ∉ signalOne ls := by
  fun_induction signalOne ls with
  | case1 => simp
  | case2 ls =>
    rw [List.countP_cons_of_pos rfl] at hone
    have hnone : ls.countP Looper.running = 0 := by omega
    intro hmem
    rcases List.mem_cons.mp hmem with h | h
    · cases h
    · exact absurd rfl (List.countP_eq_zero.mp hnone _ h)
  | case3 l ls hne ih =>
    intro hmem
    have hle : ls.countP Looper.running ≤ 1 := by
      rw [List.countP_cons] at hone
      omega
    rcases List.mem_cons.mp hmem with h | h
    · exact hne h.symm
    · exact ih hle h

variable {s s' : AgentState}

theorem inv_look {t : Nat} {l : Looper} (h : s.Inv)
    (ht : s.loopers[t]? = some l) (hl : l.running = true) (hlook : s.look t = some s') : s'.Inv := by
  have hle : s.loopers.countP Looper.running ≤ 1 := by
    have := h.looping
    unfold AgentState.running at this
    split at this
    · omega
    · omega
  have hcount : ∀ l' : Looper, l'.running = true → (s.loopers.set t l').countP Looper.running = s.running := by
    intro l' hl'
    have := countP_set ht l'
    rw [hl, hl'] at this
    exact Nat.add_right_cancel this
  unfold AgentState.look at hlook
  split at hlook
  · rename_i hqueue
    cases hlook
    exact {
      looping := (hcount _ rfl).trans h.looping
      order := h.order
      length := h.length
      immediate := h.immediate
      signalled := fun hne => absurd hqueue hne }
  · rename_i se queue hqueue
    have horder := h.order
    split at hlook
    · cases hlook
      exact {
        looping := (hcount _ rfl).trans h.looping
        order := by
          simp only [horder, hqueue, List.append_assoc, List.singleton_append]
        length := fun se' hse' => h.length se' (hqueue ▸ List.mem_cons_of_mem _ hse')
        immediate := fun himm => by
          rw [h.immediate himm] at hqueue
          cases hqueue
        signalled := fun _ hmem => by
          have := mem_set_running ht hl hle hmem rfl
          cases this }
    · cases hlook

theorem AgentState.Inv.running_le {s : AgentState} (h : s.Inv) : s.running ≤ 1 := by
  have := h.looping
  split at this
  · omega
  · omega

theorem inv_queue {se : SchedEvent} {nomem nothread : Bool} (h : s.Inv)
    (hstep : s.step (.queue se nomem nothread) = some s') : s'.Inv := by
  obtain ⟨r, hr, hs'⟩ := Option.bind_eq_some_iff.mp hstep
  cases hs'
  have horder := h.order
  have hlooping := h.looping
  unfold localAgentQueue at hr
  split at hr
  · rename_i hlength
    split at hr
    · -- the caller handles the event
      rename_i himm
      cases hr
      have hnil := h.immediate himm
      exact {
        looping := hlooping
        order := by simp [horder, hnil]
        length := h.length
        immediate := h.immediate
        signalled := h.signalled }
    · rename_i himm
      split at hr
      · cases hr
        exact {
          looping := hlooping
          order := by simp [horder]
          length := h.length
          immediate := h.immediate
          signalled := h.signalled }
      · cases hr
        refine {
          looping := ?_
          order := by simp [horder]
          length := ?_
          immediate := fun himm' => absurd himm' himm
          signalled := fun _ _ => Nat.succ_pos _ }
        · -- a looper is started if there is none
          unfold AgentState.running at hlooping ⊢
          cases hloop : s.la.looping <;> cases nothread <;>
            simp [hloop, List.countP_append, Looper.running] at hlooping ⊢ <;> exact hlooping
        · intro se' hse'
          rcases List.mem_append.mp hse' with hse' | hse'
          · exact h.length se' hse'
          · obtain rfl := List.mem_singleton.mp hse'
            exact hlength
  · cases hr

theorem inv_timeout {s : AgentState} {t : Nat} {woken : Bool} (h : s.Inv)
    (ht : s.loopers[t]? = some (.waiting woken)) :
    ({ s with
      la := { s.la with looping := false }
      loopers := s.loopers.set t .exiting } : AgentState).Inv := by
  have hcount := countP_set ht .exiting
  have hle := h.running_le
  unfold AgentState.running at hle
  have hw : (Looper.waiting woken).running.toNat = 1 := rfl
  have he : Looper.exiting.running.toNat = 0 := rfl
  exact {
    looping := by
      show (s.loopers.set t .exiting).countP Looper.running = 0
      omega
    order := h.order
    length := h.length
    immediate := h.immediate
    signalled := fun _ hmem => by
      have := mem_set_running ht rfl hle hmem rfl
      cases this }

theorem inv_finish {s : AgentState} {t : Nat} {se : SchedEvent} (h : s.Inv)
    (ht : s.loopers[t]? = some (.handling se)) :
    ({ s with loopers := s.loopers.set t .ready } : AgentState).Inv := by
  have hcount := countP_set ht .ready
  exact {
    looping := (Nat.add_right_cancel hcount).trans h.looping
    order := h.order
    length := h.length
    immediate := h.immediate
    signalled := fun _ hmem => by
      have := mem_set_running ht rfl h.running_le hmem rfl
      cases this }

theorem inv_step {a : AgentAct} (h : s.Inv) (hstep : s.step a = some s') : s'.Inv := by
  cases a with
  | queue se nomem nothread => exact inv_queue h hstep
  | signal =>
    unfold AgentState.step at hstep
    simp only at hstep
    split at hstep
    · cases hstep
      exact {
        looping := (running_signalOne _).trans h.looping
        order := h.order
        length := h.length
        immediate := h.immediate
        signalled := fun _ hmem => absurd hmem (not_mem_signalOne h.running_le) }
    · cases hstep
      exact h
  | dequeue t =>
    unfold AgentState.step at hstep
    simp only at hstep
    split at hstep
    · rename_i ht
      exact inv_look h ht rfl hstep
    · cases hstep
      exact h
  | wake t =>
    unfold AgentState.step at hstep
    simp only at hstep
    split at hstep
    · rename_i ht
      exact inv_look h ht rfl hstep
    · cases hstep
      exact h
  | timeout t =>
    unfold AgentState.step at hstep
    simp only at hstep
    split at hstep
    · rename_i ht
      cases hstep
      exact inv_timeout h ht
    · cases hstep
      exact h
  | finish t =>
    unfold AgentState.step at hstep
    simp only at hstep
    split at hstep
    · rename_i ht
      cases hstep
      exact inv_finish h ht
    · cases hstep
      exact h

/-! ## Section 3: No event is left behind -/

/-- Where there are events, a looper is going to look at the queue: it is in its loop, and if
    it sleeps it is going to be woken. -/
def AgentState.WillLook (s : AgentState) : Prop :=
  s.la.queue ≠ [] → ∃ l ∈ s.loopers, l.running = true ∧ (l = .waiting false → 0 < s.signals)

structure AgentState.Served (s : AgentState) : Prop where
  willLook : s.WillLook
  one : s.running ≤ 1
  /-- Each event is handed over once, in the order in which it was queued. -/
  order : s.enqueued = s.handed ++ s.la.queue

/-- A step that leaves no event behind: a wait only times out when the queue is empty, and a
    looper that is needed is started. -/
def AgentState.Harmless (s : AgentState) : AgentAct → Prop
  | .queue se nomem nothread =>
    nothread = false ∨ s.la.immediate = true ∨ s.la.looping = true ∨ nomem = true ∨ se.length = 0
  | .timeout t => ∀ woken, s.loopers[t]? = some (.waiting woken) → s.la.queue = []
  | _ => True

theorem willLook_iff {s : AgentState} (h : s.Inv) : s.WillLook ↔ s.la.queue = [] ∨ s.la.looping = true := by
  have hlooping := h.looping
  unfold AgentState.WillLook
  constructor
  · intro hlook
    by_cases hne : s.la.queue = []
    · exact .inl hne
    · obtain ⟨l, hl, hrun, -⟩ := hlook hne
      have hpos : 0 < s.running := List.countP_pos_iff.mpr ⟨l, hl, hrun⟩
      right
      by_contra hnot
      rw [if_neg hnot] at hlooping
      omega
  · intro hor hne
    have hloop := hor.resolve_left hne
    rw [if_pos hloop] at hlooping
    have hpos : 0 < s.loopers.countP Looper.running := by
      unfold AgentState.running at hlooping
      omega
    obtain ⟨l, hl, hrun⟩ := List.countP_pos_iff.mp hpos
    exact ⟨l, hl, hrun, fun hw => h.signalled hne (hw ▸ hl)⟩

theorem served_iff {s : AgentState} (h : s.Inv) : s.Served ↔ s.la.queue = [] ∨ s.la.looping = true := by
  rw [← willLook_iff h]
  exact ⟨fun hs => hs.willLook, fun hw => ⟨hw, h.running_le, h.order⟩⟩

/-- A look at the queue starts and ends no looper, and adds no event. -/
theorem look_kept {t : Nat} (hlook : s.look t = some s')
    (h : s.la.queue = [] ∨ s.la.looping = true) : s'.la.queue = [] ∨ s'.la.looping = true := by
  unfold AgentState.look at hlook
  split at hlook
  · cases hlook
    exact h
  · rename_i se queue hqueue
    split at hlook
    · cases hlook
      right
      exact h.resolve_left (by simp [hqueue])
    · cases hlook

theorem queue_kept {se : SchedEvent} {nomem nothread : Bool}
    (hstep : s.step (.queue se nomem nothread) = some s') (h : s.la.queue = [] ∨ s.la.looping = true) :
    (s'.la.queue = [] ∨ s'.la.looping = true) ↔ s.Harmless (.queue se nomem nothread) := by
  obtain ⟨r, hr, hs'⟩ := Option.bind_eq_some_iff.mp hstep
  cases hs'
  unfold localAgentQueue at hr
  split at hr
  · rename_i hlength
    split at hr
    · rename_i himm
      cases hr
      simp only [h, AgentState.Harmless, himm, true_or, or_true]
    · rename_i himm
      split at hr
      · rename_i hnomem
        cases hr
        simp only [h, AgentState.Harmless, hnomem, true_or, or_true]
      · -- the event is on the queue, so there must be a looper
        rename_i hnomem
        cases hr
        have hzero : se.length ≠ 0 := by omega
        cases hloop : s.la.looping <;> cases nothread <;>
          simp [AgentState.Harmless, hloop, himm, hnomem, hzero]
  · cases hr

theorem served_step {a : AgentAct} (h : s.Inv) (hs : s.Served)
    (hstep : s.step a = some s') : s'.Served ↔ s.Harmless a := by
  have hkept := (served_iff h).mp hs
  rw [served_iff (inv_step h hstep)]
  cases a with
  | queue se nomem nothread => exact queue_kept hstep hkept
  | signal =>
    unfold AgentState.step at hstep
    simp only at hstep
    refine iff_of_true ?_ trivial
    split at hstep
    · cases hstep
      exact hkept
    · cases hstep
      exact hkept
  | dequeue t =>
    unfold AgentState.step at hstep
    simp only at hstep
    refine iff_of_true ?_ trivial
    split at hstep
    · exact look_kept hstep hkept
    · cases hstep
      exact hkept
  | wake t =>
    unfold AgentState.step at hstep
    simp only at hstep
    refine iff_of_true ?_ trivial
    split at hstep
    · exact look_kept hstep hkept
    · cases hstep
      exact hkept
  | timeout t =>
    unfold AgentState.step at hstep
    simp only at hstep
    split at hstep
    · -- the flag is cleared, whatever is on the queue
      rename_i woken ht
      cases hstep
      simp [AgentState.Harmless, ht]
    · rename_i hne
      cases hstep
      exact iff_of_true hkept fun woken ht => absurd ht (hne woken)
  | finish t =>
    unfold AgentState.step at hstep
    simp only at hstep
    refine iff_of_true ?_ trivial
    split at hstep
    · cases hstep
      exact hkept
    · cases hstep
      exact hkept

/-- The assertion of `local_agent_queue` only fails for an event without agents. -/
theorem harmless_of_fail (s : AgentState) (a : AgentAct) (hstep : s.step a = none) : s.Harmless a := by
  cases a with
  | queue se nomem nothread =>
    have hr : localAgentQueue s.la se nomem nothread = none := by
      cases hr : localAgentQueue s.la se nomem nothread with
      | none => rfl
      | some r => simp [AgentState.step, hr] at hstep
    have hzero : se.length = 0 := by
      unfold localAgentQueue at hr
      by_contra hne
      rw [if_pos (by omega)] at hr
      split at hr
      · cases hr
      · split at hr
        · cases hr
        · cases hr
    exact .inr (.inr (.inr (.inr hzero)))
  | timeout t =>
    unfold AgentState.step at hstep
    simp only at hstep
    split at hstep
    · cases hstep
    · cases hstep
  | signal => trivial
  | dequeue t => trivial
  | wake t => trivial
  | finish t => trivial

/-- All states of a run are served exactly if no wait times out while there are events on
    the queue, and all loopers that are needed are started. -/
theorem localAgent_served_iff (immediate : Bool) (acts : List AgentAct) :
    (∀ pre s, pre <+: acts → run AgentState.step (.start immediate) pre = some s → s.Served) ↔
      Meets AgentState.step AgentState.Harmless (.start immediate) acts :=
  prefix_iff_meets AgentState.Inv AgentState.Served (fun _ _ _ h hstep => inv_step h hstep)
    (fun _ _ _ h hs hstep => served_step h hs hstep) (fun s a _ => harmless_of_fail s a)
    (inv_start immediate) ((served_iff (inv_start immediate)).mpr (.inl rfl)) acts

def anEvent : SchedEvent := { noEvent with length := 1 }

/-- A second event is queued after the wait of the looper has expired, but before the looper
    has the lock again. -/
def lateEvent : List AgentAct :=
  [.queue anEvent false false, .signal, .dequeue 0, .finish 0, .dequeue 0, .queue anEvent false false, .timeout 0]

theorem lateEvent_left : ∃ s, run AgentState.step (.start false) lateEvent = some s ∧
    s.la.queue = [anEvent] ∧ s.loopers = [.exiting] ∧ s.la.looping = false ∧ ¬s.Served := by
  refine ⟨_, rfl, rfl, rfl, rfl, ?_⟩
  intro hs
  obtain ⟨l, hl, hrun, -⟩ := hs.willLook (List.cons_ne_nil _ _)
  obtain rfl : l = .exiting := List.mem_singleton.mp hl
  cases hrun

end Emulab.Sched
