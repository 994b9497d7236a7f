import Emulab.Lib.Machine

/-! # Sequence agents of the event scheduler

  A sequence has a list of events. A run of it puts copies of them on the queue,
  one after the other, and waits for the COMPLETE of an event that sends one. It
  knows the COMPLETE by the agent and the token of the event, and the tokens of
  a sequence are given anew whenever a request for it is prepared.
-/

namespace Emulab.Sched.Sequences

open Machine

/-! ## Section 1: Sequences and timelines -/

abbrev Agent := Nat

/-- What is used here of an event of a timeline or a sequence. An event may have no agent. -/
structure SchedEvent where
  agent : Option Agent
  token : Int
  sendsComplete : Bool
deriving DecidableEq

/-- `struct _ts_agent` -/
structure TimelineAgent where
  sequence : Bool
  events : List SchedEvent
  current : Int
  token : Int

/-- What an agent has done, newest first. -/
inductive Mark where
  | start (token : Int)
  /-- A copy of the event at `k` has been put on the queue. -/
  | enqueue (k : Nat) (se : SchedEvent)
  /-- The COMPLETE that the sequence waits for has come. -/
  | done (agent : Agent) (ctoken : Int)
  /-- It has come with an error. -/
  | failed (agent : Agent) (ctoken agerror : Int)
  /-- The agent has sent its own COMPLETE; it has `count` events. -/
  | complete (error ctoken : Int) (count : Nat)
  /-- RESET or CLEAR -/
  | stop
deriving DecidableEq

/-- An agent and its history, which the program does not keep. -/
structure Watched where
  ta : TimelineAgent
  log : List Mark

structure System where
  agents : List Watched
  nextToken : Int

/-- Give new tokens to events. -/
def renumber (token : Int) : List SchedEvent → List SchedEvent
  | [] => []
  | se :: events => { se with token := token } :: renumber (token + 1) events

def System.modify (s : System) (i : Nat) (f : Watched → Watched) : System :=
  { s with agents := s.agents.modify i f }

def timelineAgentExpand (s : System) (i : Nat) : System :=
  match s.agents[i]? with
  | none => s
  | some w =>
    { s.modify i fun w => { w with ta := { w.ta with events := renumber s.nextToken w.ta.events } } with
      nextToken := s.nextToken + w.ta.events.length }

section

-- which timeline or sequence handles the events of an agent
variable (handler : Agent → Option Nat)

/-- `sched_event_prepare`, as far as tokens are concerned. -/
def schedEventPrepare (s : System) (agent : Option Agent) : System :=
  match agent.bind handler with
  | none => s
  | some i => timelineAgentExpand s i

/-- `sched_event_enqueue_copy`. The copy has the token of the event, which is then prepared. -/
def schedEventEnqueueCopy (s : System) (i k : Nat) (se : SchedEvent) : System :=
  schedEventPrepare handler (s.modify i fun w => { w with log := .enqueue k se :: w.log }) se.agent

/-- The loop of `sequence_agent_enqueue_next`. -/
def enqueueLoop (i : Nat) : Nat → System → Option System
  | 0, _ => none
  | n + 1, s =>
    match s.agents[i]? with
    | none => none
    | some w =>
      match w.ta.events[w.ta.current.toNat]? with
      | none => none
      | some se =>
        let s := schedEventEnqueueCopy handler s i w.ta.current.toNat se
        if se.sendsComplete then some s
        else
          let s := s.modify i fun w => { w with ta := { w.ta with current := w.ta.current + 1 } }
          if w.ta.current + 1 < w.ta.events.length then enqueueLoop i n s else some s

/-- The end of `sequence_agent_enqueue_next`: the sequence is done with its last event. -/
def Watched.finish (w : Watched) : Watched :=
  if w.ta.current = w.ta.events.length then
    { ta := { w.ta with current := -1, token := -1 }
      log := .complete 0 w.ta.token w.ta.events.length :: w.log }
  else w

def sequenceAgentEnqueueNext (i : Nat) (s : System) : Option System :=
  match s.agents[i]? with
  | none => none
  | some w =>
    if 0 < w.ta.events.length ∧ 0 ≤ w.ta.current ∧ w.ta.current ≤ w.ta.events.length then
      if w.ta.current = w.ta.events.length then some (s.modify i Watched.finish)
      else (enqueueLoop handler i w.ta.events.length s).map fun s => s.modify i Watched.finish
    else none

/-- The event that a sequence waits for, if it has a COMPLETE of this agent with this token. -/
def TimelineAgent.awaits (ta : TimelineAgent) (agent : Agent) (ctoken : Int) : Option Bool :=
  if 0 ≤ ta.current then
    (ta.events[ta.current.toNat]?).map fun se => se.agent = some agent && ctoken = se.token
  else some false

/-- The loop of `sequence_agent_handle_complete` for one sequence. -/
def sequenceHandleComplete (agent : Agent) (ctoken agerror : Int) (s : System) (i : Nat) : Option System :=
  match s.agents[i]? with
  | none => some s
  | some w =>
    if !w.ta.sequence then some s
    else
      match w.ta.awaits agent ctoken with
      | none => none
      | some false => some s
      | some true =>
        if agerror = 0 then
          sequenceAgentEnqueueNext handler i (s.modify i fun w =>
            { ta := { w.ta with current := w.ta.current + 1 }, log := .done agent ctoken :: w.log })
        else
          some (s.modify i fun w =>
            { ta := { w.ta with current := -1 }
              log := .complete agerror w.ta.token w.ta.events.length :: .failed agent ctoken agerror :: w.log })

def sequenceAgentHandleComplete (agent : Agent) (ctoken agerror : Int) (s : System) : Option System :=
  (List.range s.agents.length).foldlM (sequenceHandleComplete handler agent ctoken agerror) s

/-- The events that timelines and sequences know. -/
inductive EventType where
  | start
  | run
  | reset
  | clear
  | other
deriving DecidableEq

def Watched.deleteEvents (w : Watched) : Watched :=
  { ta := { w.ta with events := [], token := -1, current := -1 }, log := .stop :: w.log }

def timelineAgentImmediate (s : System) (i : Nat) (w : Watched) (evtype : EventType) (token : Int) : System :=
  match evtype with
  | .start | .run =>
    let s := (List.range w.ta.events.length).foldl (fun s k =>
      match s.agents[i]? with
      | none => s
      | some w =>
        match w.ta.events[k]? with
        | none => s
        | some se => schedEventEnqueueCopy handler s i k se) s
    s.modify i fun w => { w with log := .complete 0 token w.ta.events.length :: w.log }
  | .clear => s.modify i Watched.deleteEvents
  | _ => s

def sequenceAgentImmediate (s : System) (i : Nat) (w : Watched) (evtype : EventType) (token : Int) :
    Option System :=
  match evtype with
  | .start | .run =>
    if w.ta.current ≠ -1 then some s
    else if 0 < w.ta.events.length then
      sequenceAgentEnqueueNext handler i (s.modify i fun w =>
        { ta := { w.ta with token := token, current := 0 }, log := .start token :: w.log })
    else some s
  | .reset =>
    some (s.modify i fun w => { ta := { w.ta with token := -1, current := -1 }, log := .stop :: w.log })
  | .clear => some (s.modify i Watched.deleteEvents)
  | .other => some s

/-! ## Section 2: The scheduler -/

/-- What the scheduler is given. -/
inductive Input where
  /-- An event for an agent arrives, with or without a token, and is prepared and queued. -/
  | receive (agent : Option Agent) (token : Option Int)
  /-- An event for an agent arrives that belongs to the timeline or sequence at `i`. -/
  | append (i : Nat) (agent : Option Agent) (token : Option Int) (sendsComplete : Bool)
  /-- An event for the timeline or sequence at `i` is taken from the queue. -/
  | request (i : Nat) (evtype : EventType) (token : Int)
  /-- A COMPLETE is taken from the queue. -/
  | complete (agent : Agent) (ctoken agerror : Int)

/-- An event keeps its token, and is given one if it has none. -/
def System.number (s : System) (token : Option Int) : System × Int :=
  match token with
  | some token => (s, token)
  | none => ({ s with nextToken := s.nextToken + 1 }, s.nextToken)

def System.step (s : System) : Input → Option System
  | .receive agent token => some (schedEventPrepare handler (s.number token).1 agent)
  | .append i agent token sendsComplete =>
    let se : SchedEvent := ⟨agent, (s.number token).2, sendsComplete⟩
    some ((schedEventPrepare handler (s.number token).1 agent).modify i fun w =>
      { w with ta := { w.ta with events := w.ta.events ++ [se] } })
  | .request i evtype token =>
    match s.agents[i]? with
    | none => some s
    | some w =>
      if w.ta.sequence then sequenceAgentImmediate handler s i w evtype token
      else some (timelineAgentImmediate handler s i w evtype token)
  | .complete agent ctoken agerror => sequenceAgentHandleComplete handler agent ctoken agerror s

end

/-! ## Section 3: Indices -/

/-- What indices depend on: whether the agent is a sequence, how many events it has, and its index. -/
def Watched.shape (w : Watched) : Bool × Nat × Int := (w.ta.sequence, w.ta.events.length, w.ta.current)

def System.shapes (s : System) : List (Bool × Nat × Int) := s.agents.map Watched.shape

def Indexed (shape : Bool × Nat × Int) : Prop :=
  shape.2.2 = -1 ∨ (0 ≤ shape.2.2 ∧ shape.2.2 < shape.2.1)

section

variable {s s' : System} {i : Nat} {w : Watched} {f : Watched → Watched}

theorem getElem?_renumber (token : Int) (events : List SchedEvent) (j : Nat) :
    (renumber token events)[j]? = (events[j]?).map fun se => { se with token := token + j } := by
  induction events generalizing token j with
  | nil => rfl
  | cons se events ih =>
    cases j with
    | zero => simp [renumber]
    | succ j =>
      rw [renumber, List.getElem?_cons_succ, List.getElem?_cons_succ, ih]
      congr 1
      funext se'
      rw [show token + 1 + (j : Int) = token + ((j + 1 : Nat) : Int) by push_cast; ring]

@[simp] theorem length_renumber (token : Int) (events : List SchedEvent) :
    (renumber token events).length = events.length := by
  induction events generalizing token with
  | nil => rfl
  | cons se events ih => rw [renumber, List.length_cons, List.length_cons, ih]

theorem getElem?_modify_self (h : s.agents[i]? = some w) : (s.modify i f).agents[i]? = some (f w) := by
  unfold System.modify
  dsimp only
  rw [List.getElem?_modify_eq, h]
  rfl

theorem getElem?_modify_ne {j : Nat} (h : j ≠ i) : (s.modify i f).agents[j]? = s.agents[j]? := by
  unfold System.modify
  dsimp only
  rw [List.getElem?_modify, Option.map_eq_map]
  simp [h.symm]

theorem shapes_modify (g : Bool × Nat × Int → Bool × Nat × Int) (h : ∀ w, (f w).shape = g w.shape) :
    (s.modify i f).shapes = s.shapes.modify i g := by
  refine List.ext_getElem? fun j => ?_
  unfold System.shapes System.modify
  dsimp only
  rw [List.getElem?_map, List.getElem?_modify, List.getElem?_modify, List.getElem?_map, Option.map_eq_map,
    Option.map_eq_map, Option.map_map, Option.map_map]
  congr 1
  funext w
  by_cases hj : i = j <;> simp [hj, h]

theorem shapes_modify_of_eq (h : ∀ w, (f w).shape = w.shape) : (s.modify i f).shapes = s.shapes := by
  rw [shapes_modify id h, List.modify_id]

theorem shape_of_mem (h : s.agents[i]? = some w) : s.shapes[i]? = some w.shape := by
  unfold System.shapes
  rw [List.getElem?_map, h]
  rfl

theorem exists_of_shape {shape : Bool × Nat × Int} (h : s.shapes[i]? = some shape) :
    ∃ w, s.agents[i]? = some w ∧ w.shape = shape := by
  unfold System.shapes at h
  rw [List.getElem?_map] at h
  exact Option.map_eq_some_iff.mp h

variable {handler : Agent → Option Nat}

theorem shapes_expand (s : System) (i : Nat) : (timelineAgentExpand s i).shapes = s.shapes := by
  unfold timelineAgentExpand
  cases h : s.agents[i]? with
  | none => rfl
  | some w =>
    dsimp only
    refine List.ext_getElem? fun j => ?_
    unfold System.shapes System.modify
    dsimp only
    rw [List.getElem?_map, List.getElem?_map, List.getElem?_modify, Option.map_eq_map, Option.map_map]
    by_cases hj : i = j
    · subst hj
      rw [h]
      simp [Watched.shape]
    · simp only [hj, if_false]
      rfl

theorem shapes_prepare (s : System) (agent : Option Agent) :
    (schedEventPrepare handler s agent).shapes = s.shapes := by
  unfold schedEventPrepare
  split
  · rfl
  · exact shapes_expand s _

theorem shapes_enqueueCopy (s : System) (i k : Nat) (se : SchedEvent) :
    (schedEventEnqueueCopy handler s i k se).shapes = s.shapes := by
  unfold schedEventEnqueueCopy
  rw [shapes_prepare]
  exact shapes_modify_of_eq fun _ => rfl

def setCurrent (c : Int) (shape : Bool × Nat × Int) : Bool × Nat × Int := (shape.1, shape.2.1, c)

/-- Only the index of one agent matters. -/
theorem modify_eq_setCurrent {l : List (Bool × Nat × Int)} {shape : Bool × Nat × Int} {c : Int}
    {g : Bool × Nat × Int → Bool × Nat × Int} (h : l[i]? = some shape) (hg : g shape = setCurrent c shape) :
    l.modify i g = l.modify i (setCurrent c) := by
  refine List.ext_getElem? fun j => ?_
  rw [List.getElem?_modify, List.getElem?_modify]
  by_cases hj : i = j
  · subst hj
    rw [h]
    simp [hg]
  · simp [hj]

theorem modify_setCurrent_self {l : List (Bool × Nat × Int)} {shape : Bool × Nat × Int}
    (h : l[i]? = some shape) : l.modify i (setCurrent shape.2.2) = l := by
  rw [← modify_eq_setCurrent (g := id) h rfl, List.modify_id]

theorem modify_setCurrent_setCurrent (l : List (Bool × Nat × Int)) (i : Nat) (c c' : Int) :
    (l.modify i (setCurrent c)).modify i (setCurrent c') = l.modify i (setCurrent c') := by
  rw [List.modify_modify_eq]
  rfl

/-- The loop ends, and the index is then that of an event, or the number of events. -/
theorem enqueueLoop_total {sequence : Bool} {count : Nat} {c : Int} (n : Nat)
    (hs : s.shapes[i]? = some (sequence, count, c)) (hc : 0 ≤ c) (hlt : c < count) (hn : count - c ≤ n) :
    ∃ s' c', enqueueLoop handler i n s = some s' ∧ s'.shapes = s.shapes.modify i (setCurrent c') ∧
      0 ≤ c' ∧ c' ≤ count := by
  induction n generalizing s c with
  | zero => omega
  | succ n ih =>
    obtain ⟨w, hw, hshape⟩ := exists_of_shape hs
    simp only [Watched.shape, Prod.mk.injEq] at hshape
    obtain ⟨-, rfl, rfl⟩ := hshape
    have hk : w.ta.current.toNat < w.ta.events.length := by omega
    rw [enqueueLoop, hw]
    dsimp only
    rw [List.getElem?_eq_getElem hk]
    dsimp only
    generalize w.ta.events[w.ta.current.toNat] = se
    have hcopy : (schedEventEnqueueCopy handler s i w.ta.current.toNat se).shapes = s.shapes :=
      shapes_enqueueCopy s i w.ta.current.toNat se
    have hadv : ((schedEventEnqueueCopy handler s i w.ta.current.toNat se).modify i fun w =>
        { w with ta := { w.ta with current := w.ta.current + 1 } }).shapes =
        s.shapes.modify i (setCurrent (w.ta.current + 1)) := by
      rw [shapes_modify (fun sh => (sh.1, sh.2.1, sh.2.2 + 1)) fun _ => rfl, hcopy]
      exact modify_eq_setCurrent hs rfl
    split
    · exact ⟨_, w.ta.current, rfl, by rw [hcopy, modify_setCurrent_self hs], hc, hlt.le⟩
    · split
      · rename_i hmore
        have hs' : ((schedEventEnqueueCopy handler s i w.ta.current.toNat se).modify i fun w =>
            { w with ta := { w.ta with current := w.ta.current + 1 } }).shapes[i]? =
            some (sequence, w.ta.events.length, w.ta.current + 1) := by
          rw [hadv, List.getElem?_modify_eq, hs]
          rfl
        obtain ⟨s', c', hrun, hshapes, hc'⟩ := ih hs' (by omega) (by omega) (by omega)
        refine ⟨s', c', hrun, ?_, hc'⟩
        rw [hshapes, hadv, modify_setCurrent_setCurrent]
      · exact ⟨_, w.ta.current + 1, rfl, hadv, by omega, by omega⟩

theorem shapes_finish {sequence : Bool} {count : Nat} {c : Int} (hs : s.shapes[i]? = some (sequence, count, c)) :
    (s.modify i Watched.finish).shapes = s.shapes.modify i (setCurrent (if c = count then -1 else c)) := by
  rw [shapes_modify (fun sh => if sh.2.2 = sh.2.1 then setCurrent (-1) sh else sh)]
  · refine modify_eq_setCurrent hs ?_
    dsimp only
    split <;> rfl
  · intro w
    unfold Watched.finish Watched.shape
    dsimp only
    split <;> rfl

/-- `sequence_agent_enqueue_next` leaves the sequence at an event, or idle. -/
theorem enqueueNext_total {sequence : Bool} {count : Nat} {c : Int}
    (hs : s.shapes[i]? = some (sequence, count, c)) (hpos : 0 < count) (hc : 0 ≤ c) (hle : c ≤ count) :
    ∃ s' c', sequenceAgentEnqueueNext handler i s = some s' ∧
      s'.shapes = s.shapes.modify i (setCurrent c') ∧ (c' = -1 ∨ (0 ≤ c' ∧ c' < count)) := by
  obtain ⟨w, hw, hshape⟩ := exists_of_shape hs
  simp only [Watched.shape, Prod.mk.injEq] at hshape
  obtain ⟨-, rfl, rfl⟩ := hshape
  unfold sequenceAgentEnqueueNext
  rw [hw]
  dsimp only
  rw [if_pos ⟨hpos, hc, hle⟩]
  split
  · rename_i heq
    refine ⟨_, -1, rfl, ?_, Or.inl rfl⟩
    rw [shapes_finish hs, if_pos heq]
  · obtain ⟨s₁, c₁, hrun, hshapes, hc₁, hle₁⟩ : ∃ s₁ c₁, enqueueLoop handler i w.ta.events.length s = some s₁ ∧
          s₁.shapes = s.shapes.modify i (setCurrent c₁) ∧ 0 ≤ c₁ ∧ c₁ ≤ w.ta.events.length :=
      enqueueLoop_total w.ta.events.length hs hc (by omega) (by omega)
    have hs₁ : s₁.shapes[i]? = some (sequence, w.ta.events.length, c₁) := by
      rw [hshapes, List.getElem?_modify_eq, hs]
      rfl
    rw [hrun]
    refine ⟨_, if c₁ = w.ta.events.length then -1 else c₁, rfl, ?_, ?_⟩
    · rw [shapes_finish hs₁, hshapes, modify_setCurrent_setCurrent]
    · split <;> omega

def System.InRange (s : System) : Prop := ∀ shape ∈ s.shapes, Indexed shape

theorem System.InRange.setCurrent (h : s.InRange) {sequence : Bool} {count : Nat} {c c' : Int}
    (hs : s.shapes[i]? = some (sequence, count, c)) (hc' : c' = -1 ∨ (0 ≤ c' ∧ c' < count))
    (hs' : s'.shapes = s.shapes.modify i (setCurrent c')) : s'.InRange := by
  intro shape hshape
  rw [hs'] at hshape
  obtain ⟨j, hj⟩ := List.getElem?_of_mem hshape
  rw [List.getElem?_modify] at hj
  by_cases hij : i = j
  · subst hij
    rw [hs] at hj
    simp only [if_true, Option.map_eq_map, Option.map_some, Option.some.injEq] at hj
    rw [← hj]
    exact hc'
  · simp only [hij, if_false, Option.map_eq_map] at hj
    rw [show (fun a : Bool × Nat × Int => a) = id from rfl, Option.map_id] at hj
    exact h shape (List.mem_of_getElem? hj)

theorem System.InRange.modify (h : s.InRange) (g : Bool × Nat × Int → Bool × Nat × Int)
    (hg : ∀ shape, Indexed shape → Indexed (g shape)) (hf : ∀ w, (f w).shape = g w.shape) :
    (s.modify i f).InRange := by
  intro shape hshape
  rw [shapes_modify g hf] at hshape
  obtain ⟨j, hj⟩ := List.getElem?_of_mem hshape
  rw [List.getElem?_modify, Option.map_eq_map] at hj
  obtain ⟨shape', hshape', rfl⟩ := Option.map_eq_some_iff.mp hj
  have hold := h shape' (List.mem_of_getElem? hshape')
  split
  · exact hg shape' hold
  · exact hold

theorem System.InRange.of_shapes (h : s.InRange) (hs : s'.shapes = s.shapes) : s'.InRange := by
  unfold System.InRange
  rw [hs]
  exact h

/-- A step of `sequence_agent_handle_complete` does not fail. -/
theorem handleComplete_total (h : s.InRange) (agent : Agent) (ctoken agerror : Int) (i : Nat) :
    ∃ s', sequenceHandleComplete handler agent ctoken agerror s i = some s' ∧ s'.InRange := by
  unfold sequenceHandleComplete
  cases hw : s.agents[i]? with
  | none => exact ⟨s, rfl, h⟩
  | some w =>
    have hs := shape_of_mem hw
    have hindexed := h _ (List.mem_of_getElem? hs)
    unfold Indexed Watched.shape at hindexed
    dsimp only at hindexed ⊢
    split
    · exact ⟨s, rfl, h⟩
    unfold TimelineAgent.awaits
    split
    rotate_left
    · exact ⟨s, rfl, h⟩
    · rename_i heq
      split at heq
      swap
      · cases heq
      rename_i hpos
      split
      swap
      · refine ⟨_, rfl, h.setCurrent hs (Or.inl rfl) ?_⟩
        exact shapes_modify _ fun _ => rfl
      · -- the index moves on, and then the next events are queued
        have hshapes : (s.modify i fun w =>
            { ta := { w.ta with current := w.ta.current + 1 }
              log := .done agent ctoken :: w.log }).shapes =
            s.shapes.modify i (setCurrent (w.ta.current + 1)) := by
          rw [shapes_modify (fun sh => (sh.1, sh.2.1, sh.2.2 + 1)) fun _ => rfl]
          exact modify_eq_setCurrent hs rfl
        have hs₁ : (s.modify i fun w =>
            { ta := { w.ta with current := w.ta.current + 1 }
              log := .done agent ctoken :: w.log }).shapes[i]? =
            some (w.ta.sequence, w.ta.events.length, w.ta.current + 1) := by
          rw [hshapes, List.getElem?_modify_eq, hs]
          rfl
        obtain ⟨s', c', hrun, hs', hc'⟩ := @enqueueNext_total _ _ handler _ _ _ hs₁ (by omega) (by omega)
          (by omega)
        refine ⟨s', hrun, h.setCurrent hs hc' ?_⟩
        rw [hs', hshapes, modify_setCurrent_setCurrent]
    · rename_i heq
      split at heq
      · rename_i hpos
        rw [List.getElem?_eq_getElem (by omega)] at heq
        cases heq
      · cases heq

theorem sequenceImmediate_total (h : s.InRange) (hw : s.agents[i]? = some w) (evtype : EventType)
    (token : Int) : ∃ s', sequenceAgentImmediate handler s i w evtype token = some s' ∧ s'.InRange := by
  have hs := shape_of_mem hw
  have hstart : ∃ s', (if w.ta.current ≠ -1 then some s
      else if 0 < w.ta.events.length then
        sequenceAgentEnqueueNext handler i (s.modify i fun w =>
          { ta := { w.ta with token := token, current := 0 }, log := .start token :: w.log })
      else some s) = some s' ∧ s'.InRange := by
    split
    · exact ⟨s, rfl, h⟩
    split
    swap
    · exact ⟨s, rfl, h⟩
    rename_i hpos
    have hshapes : (s.modify i fun w =>
        { ta := { w.ta with token := token, current := 0 }, log := .start token :: w.log }).shapes =
        s.shapes.modify i (setCurrent 0) := shapes_modify _ fun _ => rfl
    have hs₁ : (s.modify i fun w =>
        { ta := { w.ta with token := token, current := 0 }, log := .start token :: w.log }).shapes[i]? =
        some (w.ta.sequence, w.ta.events.length, 0) := by
      rw [hshapes, List.getElem?_modify_eq, hs]
      rfl
    obtain ⟨s', c', hrun, hs', hc'⟩ := @enqueueNext_total _ _ handler _ _ _ hs₁ hpos le_rfl (by omega)
    refine ⟨s', hrun, h.setCurrent hs hc' ?_⟩
    rw [hs', hshapes, modify_setCurrent_setCurrent]
  cases evtype with
  | start => exact hstart
  | run => exact hstart
  | reset => exact ⟨_, rfl, h.modify (setCurrent (-1)) (fun _ _ => Or.inl rfl) fun _ => rfl⟩
  | clear => exact ⟨_, rfl, h.modify (fun sh => (sh.1, 0, -1)) (fun _ _ => Or.inl rfl) fun _ => rfl⟩
  | other => exact ⟨s, rfl, h⟩

theorem timelineImmediate_inRange (h : s.InRange) (evtype : EventType) (token : Int) :
    (timelineAgentImmediate handler s i w evtype token).InRange := by
  have hcopies : ∀ (ks : List Nat) (s : System), (ks.foldl (fun s k =>
      match s.agents[i]? with
      | none => s
      | some w =>
        match w.ta.events[k]? with
        | none => s
        | some se => schedEventEnqueueCopy handler s i k se) s).shapes = s.shapes := by
    intro ks
    induction ks with
    | nil => exact fun _ => rfl
    | cons k ks ih =>
      intro s
      rw [List.foldl_cons, ih]
      split
      · rfl
      split
      · rfl
      · exact shapes_enqueueCopy s i k _
  have hstart : ((List.range w.ta.events.length).foldl (fun s k =>
      match s.agents[i]? with
      | none => s
      | some w =>
        match w.ta.events[k]? with
        | none => s
        | some se => schedEventEnqueueCopy handler s i k se) s |>.modify i fun w =>
          { w with log := .complete 0 token w.ta.events.length :: w.log }).InRange :=
    (h.of_shapes (hcopies _ s)).modify id (fun _ h => h) fun _ => rfl
  cases evtype with
  | start => exact hstart
  | run => exact hstart
  | clear => exact h.modify (fun sh => (sh.1, 0, -1)) (fun _ _ => Or.inl rfl) fun _ => rfl
  | reset => exact h
  | other => exact h

/-- Whatever the scheduler is given, no index leaves its list of events and no assertion fails. -/
theorem step_total (h : s.InRange) (input : Input) : ∃ s', s.step handler input = some s' ∧ s'.InRange := by
  have hnumber : ∀ token, (s.number token).1.InRange := by
    intro token
    cases token <;> exact h
  have hprepare : ∀ {s : System}, s.InRange → ∀ agent, (schedEventPrepare handler s agent).InRange :=
    fun h agent => h.of_shapes (shapes_prepare _ agent)
  cases input with
  | receive agent token => exact ⟨_, rfl, hprepare (hnumber token) agent⟩
  | append i agent token sendsComplete =>
    refine ⟨_, rfl, (hprepare (hnumber token) agent).modify (fun sh => (sh.1, sh.2.1 + 1, sh.2.2)) ?_ ?_⟩
    · rintro ⟨q, n, c⟩ hindexed
      refine hindexed.imp_right fun h => ⟨h.1, ?_⟩
      have := h.2
      dsimp only at this ⊢
      omega
    · intro w
      simp [Watched.shape]
  | request i evtype token =>
    unfold System.step
    dsimp only
    cases hw : s.agents[i]? with
    | none => exact ⟨s, rfl, h⟩
    | some w =>
      dsimp only
      split
      · exact sequenceImmediate_total h hw evtype token
      · exact ⟨_, rfl, timelineImmediate_inRange h evtype token⟩
  | complete agent ctoken agerror =>
    unfold System.step sequenceAgentHandleComplete
    dsimp only
    generalize List.range s.agents.length = is
    induction is generalizing s with
    | nil => exact ⟨s, rfl, h⟩
    | cons i is ih =>
      obtain ⟨s₁, hs₁, h₁⟩ := @handleComplete_total _ handler h agent ctoken agerror i
      obtain ⟨s', hs', h'⟩ := ih h₁ (fun token => by cases token <;> exact h₁)
      refine ⟨s', ?_, h'⟩
      rw [List.foldlM_cons, hs₁]
      exact hs'

end

end Emulab.Sched.Sequences
