import Emulab.Lib.Machine
import Mathlib.Data.List.Perm.Subperm

/-! # Group agents of the event scheduler

  A group forwards its events to its members and, where such an event sends back
  a COMPLETE, waits for one of every member before it sends its own. What it
  waits for is a token and a counter. Members may be groups themselves.
-/

namespace Emulab.Sched.Groups

open Machine

/-! ## Section 1: Groups -/

abbrev Agent := Nat

inductive Handler where
  /-- The agent is not managed by the scheduler, and its events are sent on. -/
  | remote
  | group (i : Nat)
  /-- Another agent with `LAF_IMMEDIATE`. -/
  | immediate
  /-- An agent with a queue and a thread. -/
  | queued (multiple : Bool)
deriving DecidableEq

/-- What is used here of an event: the `TOKEN` of its notification, and its flag
    `SEF_SENDS_COMPLETE`. -/
structure Event where
  token : Option Int
  sendsComplete : Bool
  length : Nat

/-- `struct _group_agent`. The members begin at 1 in the source, after the group itself. -/
structure GroupAgent where
  agents : List Agent
  token : Int
  remaining : Int
  error : Int

/-- What a group has been part of, newest first: the requests that it waits for, the notifications
    of completion, and those that it has sent itself. -/
inductive Entry where
  | request (token : Int)
  | complete (agent : Agent) (ctoken agerror : Int)
  | emit (error ctoken : Int)
deriving DecidableEq

/-- A group and its history, which the program does not keep. -/
structure Watched where
  ga : GroupAgent
  log : List Entry

/-- The beginning of `group_agent_immediate`. -/
def Watched.request (w : Watched) (se : Event) : Watched :=
  if w.ga.token ≠ -1 then w
  else if se.sendsComplete then
    let token := se.token.getD w.ga.token
    { ga := { w.ga with token := token, error := 0, remaining := w.ga.agents.length }
      log := .request token :: w.log }
  else w

def GroupAgent.counts (ga : GroupAgent) (agent : Agent) (ctoken : Int) : Bool :=
  0 < ga.remaining && (agent ∈ ga.agents && ga.token = ctoken)

/-- What the loop of `group_agent_handle_complete` does for a group. -/
def Watched.handleComplete (agent : Agent) (ctoken agerror : Int) (w : Watched) : Watched :=
  let ga :=
    if w.ga.counts agent ctoken then
      { w.ga with
        remaining := w.ga.remaining - 1
        error := if agerror > w.ga.error then agerror else w.ga.error }
    else w.ga
  let log := .complete agent ctoken agerror :: w.log
  if ga.remaining = 0 then
    { ga := { ga with token := -1, remaining := -1 }, log := .emit ga.error ga.token :: log }
  else
    { ga := ga, log := log }

/-! ## Section 2: The scheduler -/

structure System where
  groups : List Watched

/-- `group_agent_immediate`. The group at `i` looks at the event and hands it to its members; `n` is the
    depth that the stack has room for. -/
def groupAgentImmediate (handler : Agent → Handler) : Nat → Nat → System × Event → Option (System × Event)
  | 0, _, _ => none
  | n + 1, i, (s, se) =>
    match s.groups[i]? with
    | none => none
    | some w =>
      let s : System := ⟨s.groups.set i (w.request se)⟩
      -- `local_agent_queue` for a member
      let queue : System × Event → Agent → Option (System × Event) := fun p agent =>
        if p.2.length = 0 then none
        else
          match handler agent with
          | .remote => none
          | .group j => groupAgentImmediate handler n j p
          | .immediate => some p
          -- the notification is now owned by the agent
          | .queued _ => some (p.1, { p.2 with length := 0 })
      match w.ga.agents with
      | [] => none
      | first :: agents =>
        match handler first with
        | .remote => some (s, se)
        | .queued true => queue (s, se) first
        | _ => (first :: agents).foldlM queue (s, se)

/-- What the scheduler is given: an event for a group, or a COMPLETE of an agent. -/
inductive Input where
  | request (i : Nat) (se : Event)
  | complete (agent : Agent) (ctoken agerror : Int)

def System.step (handler : Agent → Handler) (s : System) : Input → Option System
  | .request i se =>
    if se.length = 0 then none
    else (groupAgentImmediate handler s.groups.length i (s, se)).map Prod.fst
  | .complete agent ctoken agerror =>
    some ⟨s.groups.map (Watched.handleComplete agent ctoken agerror)⟩

/-- The groups as they are created, before any event. -/
def System.Initial (s : System) : Prop :=
  ∀ w ∈ s.groups, w.log = [] ∧ w.ga.token = -1 ∧ w.ga.remaining = -1

instance (s : System) : Decidable s.Initial :=
  inferInstanceAs (Decidable (∀ w ∈ s.groups, w.log = [] ∧ w.ga.token = -1 ∧ w.ga.remaining = -1))

/-! ## Section 3: What a group promises -/

/-- A COMPLETE answers the last request: nothing has been sent since, every member has completed with the
    token of the request since, and the error is the greatest of theirs. -/
def Answers (agents : List Agent) (error ctoken : Int) (log : List Entry) : Prop :=
  ∃ since before, log = since ++ .request ctoken :: before ∧
    (∀ token, .request token ∉ since) ∧ (∀ error' ctoken', .emit error' ctoken' ∉ since) ∧
    (∀ agent ∈ agents, ∃ agerror, .complete agent ctoken agerror ∈ since) ∧
    (∃ agent ∈ agents, .complete agent ctoken error ∈ since) ∧
    ∀ agent ∈ agents, ∀ agerror, .complete agent ctoken agerror ∈ since → agerror ≤ error

/-- Whatever a group has sent answers a request. -/
def Sound (w : Watched) : Prop :=
  ∀ after error ctoken before, w.log = after ++ .emit error ctoken :: before →
    Answers w.ga.agents error ctoken before

/-- The history since the last request. -/
def since : List Entry → List Entry
  | [] => []
  | .request _ :: _ => []
  | e :: log => e :: since log

/-- A notification of completion by an agent. -/
def Entry.completes (agent : Agent) (ctoken : Int) : Entry → Bool
  | .complete agent' ctoken' _ => agent' = agent && ctoken' = ctoken
  | _ => false

/-- A notification that a group counts has no negative error, and is the first of its agent. -/
def InputOk (s : System) : Input → Prop
  | .request _ _ => True
  | .complete agent ctoken agerror => ∀ w ∈ s.groups, w.ga.counts agent ctoken = true →
    0 ≤ agerror ∧ ∀ e ∈ since w.log, e.completes agent ctoken = false

/-! ## Section 4: One group -/

section

variable {w : Watched}

/-- A group that waits knows whom it waits for. -/
structure Waiting (w : Watched) (done : List Agent) : Prop where
  positive : 0 < w.ga.remaining
  history : ∃ before, w.log = since w.log ++ .request w.ga.token :: before
  silent : ∀ error ctoken, .emit error ctoken ∉ since w.log
  nodup : done.Nodup
  count : w.ga.remaining + done.length = w.ga.agents.length
  mem_done : ∀ agent, agent ∈ done ↔
    agent ∈ w.ga.agents ∧ ∃ agerror, .complete agent w.ga.token agerror ∈ since w.log
  error_le : ∀ agent ∈ w.ga.agents, ∀ agerror, .complete agent w.ga.token agerror ∈ since w.log →
    agerror ≤ w.ga.error
  error_mem : (done = [] ∧ w.ga.error = 0) ∨
    ∃ agent ∈ w.ga.agents, .complete agent w.ga.token w.ga.error ∈ since w.log

/-- A group that has kept its promise, and waits or does not. -/
structure Good (w : Watched) : Prop where
  sound : Sound w
  idle_or_waiting : w.ga.remaining = -1 ∨ ∃ done, Waiting w done

theorem request_not_mem_since (log : List Entry) (token : Int) : .request token ∉ since log := by
  fun_induction since log with
  | case1 => simp
  | case2 => simp
  | case3 e log he ih =>
    rw [List.mem_cons, not_or]
    exact ⟨fun h => he token h.symm, ih⟩

theorem since_cons {e : Entry} (he : ∀ token, e ≠ .request token) (log : List Entry) :
    since (e :: log) = e :: since log := by
  cases e with
  | request token => exact absurd rfl (he token)
  | complete => rfl
  | emit => rfl

theorem Sound.cons {e : Entry} {ga : GroupAgent} (h : Sound w) (hga : ga.agents = w.ga.agents)
    (he : ∀ error ctoken, e ≠ .emit error ctoken) : Sound ⟨ga, e :: w.log⟩ := by
  intro after error ctoken before hlog
  cases after with
  | nil =>
    rw [List.nil_append, List.cons.injEq] at hlog
    exact absurd hlog.1 (he error ctoken)
  | cons x after =>
    rw [List.cons_append, List.cons.injEq] at hlog
    show Answers ga.agents error ctoken before
    rw [hga]
    exact h after error ctoken before hlog.2

theorem Sound.emit {error ctoken : Int} {ga : GroupAgent} (h : Sound w)
    (hga : ga.agents = w.ga.agents) (hanswers : Answers w.ga.agents error ctoken w.log) :
    Sound ⟨ga, .emit error ctoken :: w.log⟩ := by
  intro after error' ctoken' before hlog
  show Answers ga.agents error' ctoken' before
  rw [hga]
  cases after with
  | nil =>
    rw [List.nil_append, List.cons.injEq, Entry.emit.injEq] at hlog
    obtain ⟨⟨rfl, rfl⟩, rfl⟩ := hlog
    exact hanswers
  | cons x after =>
    rw [List.cons_append, List.cons.injEq] at hlog
    exact h after error' ctoken' before hlog.2

theorem Good.request (h : Good w) (se : Event) (hne : w.ga.agents ≠ []) : Good (w.request se) := by
  unfold Watched.request
  split
  · exact h
  split
  swap
  · exact h
  refine ⟨h.sound.cons rfl (by simp), Or.inr ⟨[], ?_⟩⟩
  have hpos : 0 < w.ga.agents.length := List.length_pos_iff.mpr hne
  exact {
    positive := by
      dsimp only
      omega
    history := ⟨w.log, rfl⟩
    silent := by simp [since]
    nodup := List.nodup_nil
    count := by simp
    mem_done := by simp [since]
    error_le := by simp [since]
    error_mem := Or.inl ⟨rfl, rfl⟩ }

/-- Distinct members, as many as the group has, are all of them. -/
theorem mem_of_nodup_length {done agents : List Agent} (hnodup : done.Nodup) (hsub : ∀ a ∈ done, a ∈ agents)
    (hlen : done.length = agents.length) : ∀ a ∈ agents, a ∈ done :=
  fun a ha => ((hnodup.subperm hsub).perm_of_length_le (by omega)).mem_iff.mpr ha

/-- A notification that a group does not count leaves it waiting. -/
theorem Waiting.skip {agent : Agent} {ctoken agerror : Int} {done : List Agent} (h : Waiting w done)
    (hcounts : w.ga.counts agent ctoken = false) :
    Waiting ⟨w.ga, .complete agent ctoken agerror :: w.log⟩ done := by
  have hsince := since_cons (e := .complete agent ctoken agerror) (by simp) w.log
  have hother : ∀ a ∈ w.ga.agents, ∀ e, .complete a w.ga.token e ≠ Entry.complete agent ctoken agerror := by
    intro a ha e heq
    cases heq
    have hpos := h.positive
    simp [GroupAgent.counts, ha, hpos] at hcounts
  constructor
  case positive => exact h.positive
  case history =>
    obtain ⟨before, hbefore⟩ := h.history
    refine ⟨before, ?_⟩
    dsimp only
    rw [hsince, List.cons_append, ← hbefore]
  case silent =>
    intro error ctoken' hmem
    dsimp only at hmem
    rw [hsince, List.mem_cons] at hmem
    rcases hmem with hmem | hmem
    · cases hmem
    · exact h.silent error ctoken' hmem
  case nodup => exact h.nodup
  case count => exact h.count
  case mem_done =>
    intro a
    rw [h.mem_done]
    dsimp only
    rw [hsince]
    refine and_congr_right fun ha => exists_congr fun e => ?_
    rw [List.mem_cons, or_iff_right (hother a ha e)]
  case error_le =>
    intro a ha e hmem
    dsimp only at hmem ⊢
    rw [hsince, List.mem_cons, or_iff_right (hother a ha e)] at hmem
    exact h.error_le a ha e hmem
  case error_mem =>
    dsimp only
    rw [hsince]
    exact h.error_mem.imp_right fun ⟨a, ha, hmem⟩ => ⟨a, ha, List.mem_cons_of_mem _ hmem⟩

/-- What a group knows of its members once it has counted one more: `w` is the group before, and the
    counter is left out. -/
structure Counted (w : Watched) (agent : Agent) (agerror error : Int) (done : List Agent) : Prop where
  nodup : (agent :: done).Nodup
  count : w.ga.remaining - 1 + (agent :: done).length = w.ga.agents.length
  mem_done : ∀ a, a ∈ agent :: done ↔ a ∈ w.ga.agents ∧
    ∃ e, .complete a w.ga.token e ∈ since (.complete agent w.ga.token agerror :: w.log)
  error_le : ∀ a ∈ w.ga.agents, ∀ e,
    .complete a w.ga.token e ∈ since (.complete agent w.ga.token agerror :: w.log) → e ≤ error
  error_mem : ∃ a ∈ w.ga.agents, .complete a w.ga.token error ∈ since (.complete agent w.ga.token agerror :: w.log)

theorem Waiting.counted {agent : Agent} {agerror : Int} {done : List Agent} (h : Waiting w done)
    (hmem : agent ∈ w.ga.agents) (hpos : 0 ≤ agerror)
    (hnew : ∀ e ∈ since w.log, e.completes agent w.ga.token = false) :
    Counted w agent agerror (if agerror > w.ga.error then agerror else w.ga.error) done := by
  have hsince := since_cons (e := .complete agent w.ga.token agerror) (by simp) w.log
  have hnot : agent ∉ done := by
    intro hdone
    obtain ⟨-, e, he⟩ := (h.mem_done agent).mp hdone
    have hnew := hnew _ he
    simp [Entry.completes] at hnew
  constructor
  case nodup => exact List.nodup_cons.mpr ⟨hnot, h.nodup⟩
  case count =>
    have hcount := h.count
    rw [List.length_cons]
    omega
  case mem_done =>
    intro a
    rw [List.mem_cons, h.mem_done, hsince]
    constructor
    · rintro (rfl | ⟨ha, e, he⟩)
      · exact ⟨hmem, agerror, List.mem_cons_self⟩
      · exact ⟨ha, e, List.mem_cons_of_mem _ he⟩
    · rintro ⟨ha, e, he⟩
      rcases List.mem_cons.mp he with he | he
      · cases he
        exact Or.inl rfl
      · exact Or.inr ⟨ha, e, he⟩
  case error_le =>
    intro a ha e he
    rw [hsince] at he
    rcases List.mem_cons.mp he with he | he
    · cases he
      split <;> omega
    · have hle := h.error_le a ha e he
      split <;> omega
  case error_mem =>
    rw [hsince]
    split
    · exact ⟨agent, hmem, List.mem_cons_self⟩
    · rename_i hle
      rcases h.error_mem with ⟨-, hzero⟩ | ⟨a, ha, he⟩
      · -- the first error is 0, which the group has begun with
        have heq : w.ga.error = agerror := by omega
        rw [heq]
        exact ⟨agent, hmem, List.mem_cons_self⟩
      · exact ⟨a, ha, List.mem_cons_of_mem _ he⟩

/-- A notification is counted at most once, and the last one makes the group send its own. -/
theorem Good.handleComplete {agent : Agent} {ctoken agerror : Int} (h : Good w)
    (hok : w.ga.counts agent ctoken = true → 0 ≤ agerror ∧ ∀ e ∈ since w.log, e.completes agent ctoken = false) :
    Good (w.handleComplete agent ctoken agerror) := by
  have hsound := @Sound.cons w (.complete agent ctoken agerror) w.ga h.sound rfl (by simp)
  unfold Watched.handleComplete
  cases hcounts : w.ga.counts agent ctoken with
  | false =>
    dsimp only
    rw [if_neg Bool.false_ne_true, if_neg]
    · refine ⟨hsound, h.idle_or_waiting.imp_right ?_⟩
      rintro ⟨done, hwait⟩
      exact ⟨done, hwait.skip hcounts⟩
    · rcases h.idle_or_waiting with h | ⟨done, hwait⟩
      · omega
      · have := hwait.positive
        omega
  | true =>
    obtain ⟨hpos, hnew⟩ := hok hcounts
    have hc := hcounts
    simp only [GroupAgent.counts, Bool.and_eq_true, decide_eq_true_eq] at hc
    obtain ⟨hrem, hmem, rfl⟩ := hc
    obtain ⟨done, hwait⟩ := h.idle_or_waiting.resolve_left (by omega)
    have hcounted := hwait.counted hmem hpos hnew
    obtain ⟨before, hbefore⟩ := hwait.history
    have hsince := since_cons (e := .complete agent w.ga.token agerror) (by simp) w.log
    have hlog : .complete agent w.ga.token agerror :: w.log =
        since (.complete agent w.ga.token agerror :: w.log) ++ .request w.ga.token :: before := by
      rw [hsince, List.cons_append, ← hbefore]
    have hsilent : ∀ error ctoken, .emit error ctoken ∉ since (.complete agent w.ga.token agerror :: w.log) := by
      intro error ctoken
      rw [hsince, List.mem_cons, not_or]
      exact ⟨by simp, hwait.silent error ctoken⟩
    dsimp only
    rw [if_pos rfl]
    dsimp only
    split
    · rename_i hzero
      refine ⟨hsound.emit rfl ?_, Or.inl rfl⟩
      have hall := mem_of_nodup_length hcounted.nodup (fun a ha => ((hcounted.mem_done a).mp ha).1)
        (by have := hcounted.count; omega)
      exact ⟨_, before, hlog, request_not_mem_since _, hsilent,
        fun a ha => ((hcounted.mem_done a).mp (hall a ha)).2, hcounted.error_mem, hcounted.error_le⟩
    · rename_i hne
      refine ⟨h.sound.cons rfl (by simp), Or.inr ⟨agent :: done, ?_⟩⟩
      exact {
        positive := by
          dsimp only
          omega
        history := ⟨before, hlog⟩
        silent := hsilent
        nodup := hcounted.nodup
        count := hcounted.count
        mem_done := hcounted.mem_done
        error_le := hcounted.error_le
        error_mem := Or.inr hcounted.error_mem }

end

/-! ## Section 5: All groups -/

section

variable {handler : Agent → Handler}

/-- What a request keeps of a group is kept of all of them, however far it is handed on. -/
theorem groupAgentImmediate_inv (P : Watched → Prop)
    (hrequest : ∀ w se, P w → w.ga.agents ≠ [] → P (w.request se)) (n i : Nat) {p q : System × Event}
    (hp : ∀ w ∈ p.1.groups, P w) (h : groupAgentImmediate handler n i p = some q) : ∀ w ∈ q.1.groups, P w := by
  induction n generalizing i p q with
  | zero => cases h
  | succ n ih =>
    obtain ⟨s, se⟩ := p
    rw [groupAgentImmediate] at h
    split at h
    · cases h
    rename_i w hw
    extract_lets s' queue at h
    have hqueue : ∀ p agent q, queue p agent = some q → (∀ w ∈ p.1.groups, P w) → ∀ w ∈ q.1.groups, P w := by
      intro p agent q hq hp
      dsimp only [queue] at hq
      split at hq
      · cases hq
      split at hq
      · cases hq
      · exact ih _ hp hq
      · obtain rfl := Option.some.inj hq
        exact hp
      · obtain rfl := Option.some.inj hq
        exact hp
    have hfold : ∀ (agents : List Agent) (p q : System × Event), agents.foldlM queue p = some q →
        (∀ w ∈ p.1.groups, P w) → ∀ w ∈ q.1.groups, P w := by
      intro agents
      induction agents with
      | nil =>
        intro p q hq hp
        obtain rfl := Option.some.inj hq
        exact hp
      | cons agent agents ih =>
        intro p q hq hp
        rw [List.foldlM_cons] at hq
        obtain ⟨r, hr, hq⟩ := Option.bind_eq_some_iff.mp hq
        exact ih r q hq (hqueue p agent r hr hp)
    split at h
    · cases h
    rename_i first agents hagents
    have hs' : ∀ w ∈ s'.groups, P w := by
      intro x hx
      rcases List.mem_or_eq_of_mem_set hx with hx | rfl
      · exact hp x hx
      · exact hrequest w se (hp w (List.mem_of_getElem? hw)) (by rw [hagents]; simp)
    split at h
    · obtain rfl := Option.some.inj h
      exact hs'
    · exact hqueue _ _ _ h hs'
    · exact hfold _ _ _ h hs'

theorem System.step_inv (P : Watched → Prop)
    (hrequest : ∀ w se, P w → w.ga.agents ≠ [] → P (w.request se)) {s s' : System} {input : Input}
    (hcomplete : ∀ w ∈ s.groups, ∀ agent ctoken agerror, input = .complete agent ctoken agerror → P w →
      P (w.handleComplete agent ctoken agerror))
    (hs : ∀ w ∈ s.groups, P w) (hstep : s.step handler input = some s') : ∀ w ∈ s'.groups, P w := by
  cases input with
  | request i se =>
    unfold System.step at hstep
    dsimp only at hstep
    split at hstep
    · cases hstep
    obtain ⟨q, hq, rfl⟩ := Option.map_eq_some_iff.mp hstep
    exact groupAgentImmediate_inv P hrequest _ i hs hq
  | complete agent ctoken agerror =>
    obtain rfl := Option.some.inj hstep
    intro w' hw'
    obtain ⟨w, hw, rfl⟩ := List.mem_map.mp hw'
    exact hcomplete w hw agent ctoken agerror rfl (hs w hw)

/-- The counter of a group is -1, or says how many completions it still waits for. -/
def InRange (w : Watched) : Prop :=
  w.ga.remaining = -1 ∨ (0 < w.ga.remaining ∧ w.ga.remaining ≤ w.ga.agents.length)

theorem InRange.request {w : Watched} (h : InRange w) (se : Event) (hne : w.ga.agents ≠ []) :
    InRange (w.request se) := by
  have hpos := List.length_pos_iff.mpr hne
  unfold Watched.request
  split
  · exact h
  split
  · refine Or.inr ⟨?_, le_rfl⟩
    dsimp only
    omega
  · exact h

theorem InRange.handleComplete {w : Watched} (h : InRange w) (agent : Agent) (ctoken agerror : Int) :
    InRange (w.handleComplete agent ctoken agerror) := by
  unfold Watched.handleComplete
  cases hcounts : w.ga.counts agent ctoken with
  | false =>
    dsimp only
    rw [if_neg Bool.false_ne_true]
    split
    · exact Or.inl rfl
    · exact h
  | true =>
    simp only [GroupAgent.counts, Bool.and_eq_true, decide_eq_true_eq] at hcounts
    have hle := (h.resolve_left (by omega)).2
    dsimp only
    rw [if_pos rfl]
    dsimp only
    split
    · exact Or.inl rfl
    · refine Or.inr ⟨?_, ?_⟩
      · dsimp only
        omega
      · dsimp only
        omega

theorem System.Initial.good {s : System} (h : s.Initial) : ∀ w ∈ s.groups, Good w := by
  intro w hw
  obtain ⟨hlog, -, hrem⟩ := h w hw
  refine ⟨?_, Or.inl hrem⟩
  intro after error ctoken before heq
  rw [hlog] at heq
  simp at heq

end

/-- **One COMPLETE for all.** In every run the counters stay in range, and where every notification that a
    group counts is the first of its agent and has no negative error, each COMPLETE of a group answers
    its last request. -/
theorem group_completes {handler : Agent → Handler} {start : System} (hstart : start.Initial)
    {inputs : List Input} {s : System} (hrun : run (System.step handler) start inputs = some s) :
    (∀ w ∈ s.groups, InRange w) ∧
      (Meets (System.step handler) InputOk start inputs → ∀ w ∈ s.groups, Sound w) := by
  constructor
  · refine @run_inv _ _ _ (fun _ _ => True) (fun s => ∀ w ∈ s.groups, InRange w) ?_ _ _ _
      (fun w hw => Or.inl (hstart w hw).2.2) (meets_of_forall (by simp) _) hrun
    intro s e s' hs _ hstep
    exact System.step_inv InRange (fun w se h hne => h.request se hne)
      (fun w _ agent ctoken agerror _ h => h.handleComplete agent ctoken agerror) hs hstep
  · intro hmeets
    have hgood := @run_inv _ _ _ InputOk (fun s : System => ∀ w ∈ s.groups, Good w) ?_ _ _ _ hstart.good
      hmeets hrun
    · exact fun w hw => (hgood w hw).sound
    · intro s e s' hs hok hstep
      refine System.step_inv Good (fun w se h hne => h.request se hne) ?_ hs hstep
      rintro w hw agent ctoken agerror rfl hgood
      exact hgood.handleComplete (hok w hw)

instance (s : System) : (input : Input) → Decidable (InputOk s input)
  | .request _ _ => isTrue trivial
  | .complete agent ctoken agerror =>
    inferInstanceAs (Decidable (∀ w ∈ s.groups, w.ga.counts agent ctoken = true →
      0 ≤ agerror ∧ ∀ e ∈ since w.log, e.completes agent ctoken = false))

/-- A group of the agents 1 and 2, and a group of that group. -/
def nested : System :=
  ⟨[⟨⟨[1, 2], -1, -1, 0⟩, []⟩, ⟨⟨[10], -1, -1, 0⟩, []⟩]⟩

def nestedHandler (agent : Agent) : Handler := if agent = 10 then .group 0 else .remote

/-- A request for the outer group is answered by all. -/
def answered : List Input :=
  [.request 1 ⟨some 7, true, 1⟩, .complete 1 7 0, .complete 2 6 0, .complete 2 7 3, .complete 10 7 3]

theorem group_completes_answered : ∃ s, run (System.step nestedHandler) nested answered = some s ∧
    (∀ w ∈ s.groups, Sound w) ∧
    s.groups.map (fun w => w.log.head?) = [some (.complete 10 7 3), some (.emit 3 7)] := by
  exact ⟨_, rfl, (@group_completes nestedHandler nested (by decide) answered _ rfl).2 (by decide), by decide⟩

/-- An agent that completes twice completes for the other one. -/
theorem completes_twice : ∃ s, run (System.step nestedHandler) nested
    [.request 0 ⟨some 7, true, 2⟩, .complete 1 7 0, .complete 1 7 0] = some s ∧ ¬ ∀ w ∈ s.groups, Sound w := by
  refine ⟨_, rfl, fun h => ?_⟩
  obtain ⟨since, before, hlog, -, -, hall, -⟩ :=
    h _ List.mem_cons_self [] 0 7 [.complete 1 7 0, .complete 1 7 0, .request 7] rfl
  obtain ⟨e, he⟩ := hall 2 (by decide)
  have hmem : Entry.complete 2 7 e ∈ [Entry.complete 1 7 0, .complete 1 7 0, .request 7] := by
    rw [hlog]
    exact List.mem_append_left _ he
  simp at hmem

end Emulab.Sched.Groups
