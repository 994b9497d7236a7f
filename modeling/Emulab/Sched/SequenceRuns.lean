import Emulab.Sched.SequenceAgent

/-! # Runs of sequences

  What a sequence is for is said by a machine of its own: a run begins, puts the
  events on the queue one after the other, waits after each that sends a COMPLETE,
  and sends one COMPLETE. The history of a sequence is a history of that machine
  as long as the tokens of a run are not those of another one.
-/

namespace Emulab.Sched.Sequences

open Machine List Option

/-! ## Section 1: What a sequence is for -/

/-- Where a sequence is in a run, which has been asked for with a token. -/
inductive Phase where
  | idle
  /-- The event at `k` is next. -/
  | ready (token : Int) (k : Nat)
  /-- The event at `k` is on the queue, for this agent and with this token. -/
  | waiting (token : Int) (k : Nat) (agent : Option Agent) (ctoken : Int)
  | failing (token agerror : Int)
deriving DecidableEq

def Phase.step : Phase → Mark → Option Phase
  | .idle, .start token => some (.ready token 0)
  | .ready token k, .enqueue k' se =>
    if k' = k then
      some (if se.sendsComplete then .waiting token k se.agent se.token else .ready token (k + 1))
    else none
  | .ready token k, .complete error ctoken count =>
    if error = 0 ∧ ctoken = token ∧ k = count then some .idle else none
  | .waiting token k agent ctoken, .done agent' ctoken' =>
    if agent = some agent' ∧ ctoken' = ctoken then some (.ready token (k + 1)) else none
  | .waiting token _ agent ctoken, .failed agent' ctoken' agerror =>
    if agent = some agent' ∧ ctoken' = ctoken ∧ agerror ≠ 0 then some (.failing token agerror) else none
  | .failing token agerror, .complete error ctoken _ =>
    if error = agerror ∧ ctoken = token then some .idle else none
  | _, .stop => some .idle
  | _, _ => none

/-- Where a history ends, if it is one of the machine. -/
def replay : List Mark → Option Phase
  | [] => some .idle
  | m :: log => (replay log).bind (·.step m)

/-- What has been done since the last run began, and what before. -/
def recent : List Mark → List Mark
  | [] => []
  | .start _ :: _ => []
  | m :: log => m :: recent log

def earlier : List Mark → List Mark
  | [] => []
  | .start _ :: log => log
  | _ :: log => earlier log

/-- The token of a COMPLETE that a sequence has taken. -/
def Mark.answer : Mark → Option Int
  | .done _ ctoken => some ctoken
  | .failed _ ctoken _ => some ctoken
  | _ => none

/-- No COMPLETE that has been taken has the token of an event of an earlier run. -/
def Fresh (log : List Mark) : Prop :=
  ∀ after m before, log = after ++ m :: before → ∀ ctoken, m.answer = some ctoken →
    ∀ k se, .enqueue k se ∈ earlier before → se.token ≠ ctoken

/-- The index of a sequence that has nothing to do now. -/
def Settled (ta : TimelineAgent) : Phase → Prop
  | .idle => ta.current = -1
  | .waiting _ k _ _ => ta.current = k
  | _ => False

/-- The history of a sequence is one of the machine, ends where the sequence is, and no run has been
    moved on by the token of another one. -/
structure Lawful (w : Watched) : Prop where
  replays : ∃ phase, replay w.log = some phase ∧ Settled w.ta phase
  fresh : Fresh w.log

/-- The token of an event that has been put on the queue. -/
def Mark.sent : Mark → Option Int
  | .enqueue _ se => some se.token
  | _ => none

/-- The events of a sequence that begins a run have tokens that no run of it has sent, events are
    appended without a token, and a COMPLETE that is taken has a token that the sequence has sent. -/
def InputOk (s : System) : Input → Prop
  | .receive _ _ => True
  | .append _ _ token _ => token = none
  | .request i evtype _ => ∀ w ∈ s.agents[i]?.toList, w.ta.sequence = true →
    evtype = .start ∨ evtype = .run → w.ta.current = -1 →
    ∀ m ∈ w.log, ∀ se ∈ w.ta.events, m.sent ≠ some se.token
  | .complete agent ctoken _ => ∀ w ∈ s.agents, w.ta.sequence = true →
    w.ta.awaits agent ctoken = some true → ∃ m ∈ w.log, m.sent = some ctoken

instance (s : System) : (input : Input) → Decidable (InputOk s input)
  | .receive _ _ => isTrue trivial
  | .append _ _ token _ => inferInstanceAs (Decidable (token = none))
  | .request i evtype _ => inferInstanceAs (Decidable (∀ w ∈ s.agents[i]?.toList, w.ta.sequence = true →
      evtype = .start ∨ evtype = .run → w.ta.current = -1 →
      ∀ m ∈ w.log, ∀ se ∈ w.ta.events, m.sent ≠ some se.token))
  | .complete agent ctoken _ => inferInstanceAs (Decidable (∀ w ∈ s.agents, w.ta.sequence = true →
      w.ta.awaits agent ctoken = some true → ∃ m ∈ w.log, m.sent = some ctoken))

/-! ## Section 2: One sequence -/

section

variable {w : Watched} {next : Int} {log : List Mark}

theorem mem_recent_or_earlier {k : Nat} {se : SchedEvent} (h : .enqueue k se ∈ log) :
    .enqueue k se ∈ recent log ∨ .enqueue k se ∈ earlier log := by
  fun_induction recent log with
  | case1 => cases h
  | case2 token log =>
    rw [mem_cons] at h
    exact Or.inr (h.resolve_left (by simp))
  | case3 m log hm ih =>
    have hearlier : earlier (m :: log) = earlier log := by
      cases m with
      | start token => exact absurd rfl (hm token)
      | _ => rfl
    rw [hearlier]
    rcases mem_cons.mp h with h | h
    · exact Or.inl (h ▸ mem_cons_self)
    · exact (ih h).imp_left (mem_cons_of_mem _)

theorem mem_of_mem_recent {m : Mark} (h : m ∈ recent log) : m ∈ log := by
  fun_induction recent log with
  | case1 => cases h
  | case2 => cases h
  | case3 m' log hm ih =>
    rcases mem_cons.mp h with h | h
    · exact h ▸ mem_cons_self
    · exact mem_cons_of_mem _ (ih h)

theorem mem_of_mem_earlier {m : Mark} (h : m ∈ earlier log) : m ∈ log := by
  fun_induction earlier log with
  | case1 => cases h
  | case2 => exact mem_cons_of_mem _ h
  | case3 m' log hm ih => exact mem_cons_of_mem _ (ih h)

theorem Fresh.cons {m : Mark} (h : Fresh log) (hm : m.answer = none) : Fresh (m :: log) := by
  intro after m' before hlog ctoken hanswer
  cases after with
  | nil =>
    rw [nil_append, List.cons.injEq] at hlog
    rw [← hlog.1, hm] at hanswer
    cases hanswer
  | cons x after =>
    rw [cons_append, List.cons.injEq] at hlog
    exact h after m' before hlog.2 ctoken hanswer

theorem Fresh.answer {m : Mark} {ctoken : Int} (h : Fresh log) (hm : m.answer = some ctoken)
    (hnew : ∀ k se, .enqueue k se ∈ earlier log → se.token ≠ ctoken) : Fresh (m :: log) := by
  intro after m' before hlog ctoken' hanswer
  cases after with
  | nil =>
    rw [nil_append, List.cons.injEq] at hlog
    obtain ⟨rfl, rfl⟩ := hlog
    rw [hm, Option.some.injEq] at hanswer
    exact hanswer ▸ hnew
  | cons x after =>
    rw [cons_append, List.cons.injEq] at hlog
    exact h after m' before hlog.2 ctoken' hanswer

/-- The tokens of a sequence: `next` is the next one, the events have different ones, an event that has
    been sent in this run has its token still or no event has it, and none is that of an earlier run. -/
structure Tokens (ta : TimelineAgent) (log : List Mark) (next : Int) : Prop where
  events_lt : ∀ (j : Nat) se, ta.events[j]? = some se → se.token < next
  log_lt : ∀ k se, .enqueue k se ∈ log → se.token < next
  distinct : ∀ (j j' : Nat) se se', ta.events[j]? = some se → ta.events[j']? = some se' →
    se.token = se'.token → j = j'
  sent : ∀ k se, .enqueue k se ∈ recent log → ∀ (j : Nat) se', ta.events[j]? = some se' →
    se'.token = se.token → j = k
  unsent : ∀ k se, .enqueue k se ∈ earlier log → ∀ (j : Nat) se', ta.events[j]? = some se' → se'.token ≠ se.token

/-- How a sequence is in a phase. -/
def At (ta : TimelineAgent) (log : List Mark) : Phase → Prop
  | .idle => ta.current = -1
  | .ready token k => ta.token = token ∧ k ≤ ta.events.length ∧ ∀ k' se, .enqueue k' se ∈ recent log → k' < k
  | .waiting token k agent ctoken => ta.current = k ∧ ta.token = token ∧
    (∃ se, ta.events[k]? = some se ∧ se.agent = agent) ∧
    ∀ k' se, .enqueue k' se ∈ recent log → k' ≤ k ∧ (k' = k → se.token = ctoken)
  | .failing _ _ => False

/-- A sequence in a phase that has a property. -/
structure Good (P : TimelineAgent → Phase → Prop) (w : Watched) (next : Int) : Prop where
  tokens : Tokens w.ta w.log next
  fresh : Fresh w.log
  phase : ∃ phase, replay w.log = some phase ∧ At w.ta w.log phase ∧ P w.ta phase

/-- The phase in which an event is to be put on the queue. -/
def Ready (ta : TimelineAgent) : Phase → Prop
  | .ready _ k => ta.current = k
  | _ => False

/-- The phase in which an event has been put on the queue, and the index does not show it yet. -/
def Advancing (ta : TimelineAgent) : Phase → Prop
  | .ready _ k => ta.current + 1 = k
  | _ => False

def Ended (ta : TimelineAgent) : Phase → Prop
  | .ready _ k => ta.current = k ∧ k = ta.events.length
  | phase => Settled ta phase

/-- A property of phases that depends on the index and the number of events only. -/
def Stable (P : TimelineAgent → Phase → Prop) : Prop :=
  ∀ ta ta' phase, ta'.current = ta.current → ta'.events.length = ta.events.length → P ta phase → P ta' phase

theorem stable_current {ta ta' : TimelineAgent} {phase : Phase} (h : Settled ta phase)
    (hc : ta'.current = ta.current) : Settled ta' phase := by
  cases phase with
  | idle => exact hc.trans h
  | waiting => exact hc.trans h
  | ready => exact h
  | failing => exact h

theorem stable_settled : Stable Settled := fun _ _ _ hc _ h => stable_current h hc

theorem stable_advancing : Stable Advancing := by
  intro ta ta' phase hc _ h
  cases phase with
  | ready token k =>
    show ta'.current + 1 = k
    rw [hc]
    exact h
  | _ => exact h

theorem Tokens.mono {next' : Int} (h : Tokens w.ta w.log next) (hle : next ≤ next') : Tokens w.ta w.log next' :=
  { h with
    events_lt := fun j se hj => (h.events_lt j se hj).trans_le hle
    log_lt := fun k se hk => (h.log_lt k se hk).trans_le hle }

/-- Other events are as good if their tokens are the old ones, or new. -/
theorem Tokens.renew {ta : TimelineAgent} {next' : Int} (h : Tokens w.ta w.log next) (hle : next ≤ next')
    (hlt : ∀ (j : Nat) se, ta.events[j]? = some se → se.token < next')
    (hdistinct : ∀ (j j' : Nat) se se', ta.events[j]? = some se → ta.events[j']? = some se' →
      se.token = se'.token → j = j')
    (hnew : ∀ (j : Nat) se, ta.events[j]? = some se → w.ta.events[j]? = some se ∨ next ≤ se.token) :
    Tokens ta w.log next' where
  events_lt := hlt
  log_lt k se hk := (h.log_lt k se hk).trans_le hle
  distinct := hdistinct
  sent k se hk j se' hj heq := by
    rcases hnew j se' hj with hj | hj
    · exact h.sent k se hk j se' hj heq
    · have := h.log_lt k se (mem_of_mem_recent hk)
      omega
  unsent k se hk j se' hj := by
    rcases hnew j se' hj with hj | hj
    · exact h.unsent k se hk j se' hj
    · have := h.log_lt k se (mem_of_mem_earlier hk)
      omega

/-- A sequence stays good when it is given new tokens. -/
theorem Good.renumbered {P : TimelineAgent → Phase → Prop} (h : Good P w next) (hP : Stable P) :
    Good P { w with ta := { w.ta with events := renumber next w.ta.events } } (next + w.ta.events.length) := by
  have hget : ∀ (j : Nat) se, (renumber next w.ta.events)[j]? = some se →
      ∃ se', w.ta.events[j]? = some se' ∧ se = { se' with token := next + j } := by
    intro j se hj
    rw [getElem?_renumber] at hj
    obtain ⟨se', hse', rfl⟩ := map_eq_some_iff.mp hj
    exact ⟨se', hse', rfl⟩
  refine ⟨h.tokens.renew (by omega) ?_ ?_ ?_, h.fresh, ?_⟩
  · intro j se hj
    obtain ⟨se', hse', rfl⟩ := hget j se hj
    have hlen := (List.getElem?_eq_some_iff.mp hse').1
    dsimp only
    omega
  · intro j j' se se' hj hj' heq
    obtain ⟨_, -, rfl⟩ := hget j se hj
    obtain ⟨_, -, rfl⟩ := hget j' se' hj'
    dsimp only at heq
    omega
  · intro j se hj
    obtain ⟨_, -, rfl⟩ := hget j se hj
    refine Or.inr ?_
    dsimp only
    omega
  · obtain ⟨phase, hreplay, hat, hp⟩ := h.phase
    refine ⟨phase, hreplay, ?_, hP w.ta _ phase rfl (by simp) hp⟩
    cases phase with
    | idle => exact hat
    | ready token k =>
      obtain ⟨ht, hle, hrecent⟩ := hat
      exact ⟨ht, by simpa using hle, hrecent⟩
    | waiting token k agent ctoken =>
      obtain ⟨hc, ht, ⟨se, hse, hagent⟩, hrecent⟩ := hat
      refine ⟨hc, ht, ⟨{ se with token := next + k }, ?_, hagent⟩, hrecent⟩
      dsimp only
      rw [getElem?_renumber, hse]
      rfl
    | failing => exact hat

theorem Good.mono {P : TimelineAgent → Phase → Prop} {next' : Int} (h : Good P w next)
    (hle : next ≤ next') : Good P w next' := ⟨h.tokens.mono hle, h.fresh, h.phase⟩

theorem Good.start (h : Good Settled w next) (hidle : w.ta.current = -1) (token : Int)
    (hok : ∀ k se, .enqueue k se ∈ w.log → ∀ (j : Nat) se', w.ta.events[j]? = some se' → se'.token ≠ se.token) :
    Good Ready { ta := { w.ta with token := token, current := 0 }, log := .start token :: w.log } next := by
  refine ⟨?_, h.fresh.cons rfl, .ready token 0, ?_, ?_, rfl⟩
  · exact {
      events_lt := h.tokens.events_lt
      log_lt := fun k se hk => h.tokens.log_lt k se ((mem_cons.mp hk).resolve_left (by simp))
      distinct := h.tokens.distinct
      sent := fun k se hk => by cases hk
      unsent := hok }
  · obtain ⟨phase, hreplay, -, hsettled⟩ := h.phase
    rw [replay, hreplay, bind_some]
    cases phase with
    | idle => rfl
    | waiting token' k agent ctoken =>
      have hk : w.ta.current = k := hsettled
      omega
    | ready => exact hsettled.elim
    | failing => exact hsettled.elim
  · exact ⟨rfl, Nat.zero_le _, fun k se hk => by cases hk⟩

/-- An event is put on the queue with the token that it has. -/
theorem Good.enqueue {se : SchedEvent} (h : Good Ready w next) (hse : w.ta.events[w.ta.current.toNat]? = some se) :
    Good (if se.sendsComplete then Settled else Advancing)
      { w with log := .enqueue w.ta.current.toNat se :: w.log } next := by
  obtain ⟨phase, hreplay, hat, hready⟩ := h.phase
  cases phase with
  | idle => exact hready.elim
  | waiting => exact hready.elim
  | failing => exact hready.elim
  | ready token k =>
    have hk : w.ta.current = k := hready
    obtain ⟨htoken, hle, hrecent⟩ := hat
    rw [show w.ta.current.toNat = k by omega] at hse ⊢
    have hlt := (List.getElem?_eq_some_iff.mp hse).1
    have hstep : replay (.enqueue k se :: w.log) =
        some (if se.sendsComplete then .waiting token k se.agent se.token else .ready token (k + 1)) := by
      rw [replay, hreplay, bind_some, Phase.step, if_pos rfl]
    refine ⟨?_, h.fresh.cons rfl, _, hstep, ?_⟩
    · constructor
      case events_lt => exact h.tokens.events_lt
      case log_lt =>
        intro k' se' hk'
        rcases mem_cons.mp hk' with hk' | hk'
        · cases hk'
          exact h.tokens.events_lt k se hse
        · exact h.tokens.log_lt k' se' hk'
      case distinct => exact h.tokens.distinct
      case sent =>
        intro k' se' hk' j se'' hj heq
        rcases mem_cons.mp hk' with hk' | hk'
        · cases hk'
          exact h.tokens.distinct j k se'' se hj hse heq
        · exact h.tokens.sent k' se' hk' j se'' hj heq
      case unsent => exact h.tokens.unsent
    · cases hsends : se.sendsComplete with
      | true =>
        refine ⟨⟨hk, htoken, ⟨se, hse, rfl⟩, ?_⟩, hk⟩
        intro k' se' hk'
        rcases mem_cons.mp hk' with hk' | hk'
        · cases hk'
          exact ⟨le_rfl, fun _ => rfl⟩
        · have := hrecent k' se' hk'
          exact ⟨this.le, fun heq => absurd heq this.ne⟩
      | false =>
        refine ⟨⟨htoken, hlt, ?_⟩, ?_⟩
        · intro k' se' hk'
          rcases mem_cons.mp hk' with hk' | hk'
          · cases hk'
            exact Nat.lt_succ_self k
          · have := hrecent k' se' hk'
            omega
        · show w.ta.current + 1 = ((k + 1 : Nat) : Int)
          omega

theorem Good.advance (h : Good Advancing w next) :
    Good Ready { w with ta := { w.ta with current := w.ta.current + 1 } } next := by
  obtain ⟨phase, hreplay, hat, hadvancing⟩ := h.phase
  refine ⟨⟨h.tokens.1, h.tokens.2, h.tokens.3, h.tokens.4, h.tokens.5⟩, h.fresh, phase, hreplay, ?_⟩
  cases phase with
  | idle => exact hadvancing.elim
  | waiting => exact hadvancing.elim
  | failing => exact hadvancing.elim
  | ready token k => exact ⟨hat, hadvancing⟩

/-- A run that has put all events on the queue sends its COMPLETE. -/
theorem Good.finish (h : Good Ended w next) : Good Settled w.finish next := by
  obtain ⟨phase, hreplay, hat, hended⟩ := h.phase
  unfold Watched.finish
  split
  · rename_i hcount
    refine ⟨?_, h.fresh.cons rfl, .idle, ?_, rfl, rfl⟩
    · exact {
        events_lt := h.tokens.events_lt
        log_lt := fun k se hk => h.tokens.log_lt k se ((mem_cons.mp hk).resolve_left (by simp))
        distinct := h.tokens.distinct
        sent := fun k se hk => h.tokens.sent k se ((mem_cons.mp hk).resolve_left (by simp))
        unsent := h.tokens.unsent }
    · rw [replay, hreplay, bind_some]
      cases phase with
      | idle =>
        have hc : w.ta.current = -1 := hat
        omega
      | waiting token k agent ctoken =>
        obtain ⟨hc, -, ⟨se, hse, -⟩, -⟩ := hat
        have hlt := (List.getElem?_eq_some_iff.mp hse).1
        omega
      | failing => exact hat.elim
      | ready token k => exact if_pos ⟨rfl, hat.1, hended.2⟩
  · rename_i hne
    refine ⟨h.tokens, h.fresh, phase, hreplay, hat, ?_⟩
    cases phase with
    | ready token k =>
      obtain ⟨hc, hk⟩ := hended
      omega
    | _ => exact hended

/-- What a sequence that takes a COMPLETE knows of it: it is that of the event that it has sent last. -/
theorem Good.awaited {agent : Agent} {ctoken : Int} (h : Good Settled w next)
    (hawaits : w.ta.awaits agent ctoken = some true) (hsent : ∃ k se, .enqueue k se ∈ w.log ∧ se.token = ctoken) :
    ∃ token k, replay w.log = some (.waiting token k (some agent) ctoken) ∧ w.ta.current = k ∧
      w.ta.token = token ∧ k < w.ta.events.length ∧
      (∀ k' se, .enqueue k' se ∈ recent w.log → k' ≤ k) ∧
      ∀ k' se, .enqueue k' se ∈ earlier w.log → se.token ≠ ctoken := by
  obtain ⟨phase, hreplay, hat, hsettled⟩ := h.phase
  unfold TimelineAgent.awaits at hawaits
  split at hawaits
  swap
  · cases hawaits
  rename_i hpos
  obtain ⟨se, hse, heq⟩ := map_eq_some_iff.mp hawaits
  simp only [Bool.and_eq_true, decide_eq_true_eq] at heq
  obtain ⟨hagent, htok⟩ := heq
  cases phase with
  | idle =>
    have hc : w.ta.current = -1 := hsettled
    omega
  | ready => exact hsettled.elim
  | failing => exact hsettled.elim
  | waiting token k agent' ctoken' =>
    obtain ⟨hc, htoken, ⟨se', hse', hagent'⟩, hrecent⟩ := hat
    rw [show w.ta.current.toNat = k by omega] at hse
    obtain rfl : se = se' := some.inj (hse.symm.trans hse')
    have hunsent : ∀ k' se', .enqueue k' se' ∈ earlier w.log → se'.token ≠ ctoken := by
      intro k' se' hk' heq
      exact h.tokens.unsent k' se' hk' k se hse (htok ▸ heq.symm)
    obtain ⟨k', se', hk', heq⟩ := hsent
    have hmem := (mem_recent_or_earlier hk').resolve_right fun h => hunsent k' se' h heq
    have hkk : k = k' := h.tokens.sent k' se' hmem k se hse (by rw [heq, htok])
    have hct : ctoken' = ctoken := by
      rw [← (hrecent k' se' hmem).2 hkk.symm, heq]
    refine ⟨token, k, ?_, hc, htoken, (List.getElem?_eq_some_iff.mp hse).1,
      fun k' se' hk' => (hrecent k' se' hk').1, hunsent⟩
    rw [hreplay, ← hagent', hagent, hct]

/-- Marks that are not events on the queue and not the beginning of a run leave the tokens as they are. -/
theorem Tokens.mark {ta : TimelineAgent} {m : Mark} (h : Tokens w.ta w.log next)
    (hevents : ta.events = w.ta.events) (hm : ∀ k se, m ≠ .enqueue k se) (hs : ∀ token, m ≠ .start token) :
    Tokens ta (m :: w.log) next := by
  have hrecent : recent (m :: w.log) = m :: recent w.log := by
    cases m with
    | start token => exact absurd rfl (hs token)
    | _ => rfl
  have hearlier : earlier (m :: w.log) = earlier w.log := by
    cases m with
    | start token => exact absurd rfl (hs token)
    | _ => rfl
  constructor
  case events_lt => exact hevents ▸ h.events_lt
  case log_lt =>
    intro k se hk
    exact h.log_lt k se ((mem_cons.mp hk).resolve_left (Ne.symm (hm k se)))
  case distinct => exact hevents ▸ h.distinct
  case sent =>
    intro k se hk
    rw [hrecent] at hk
    exact hevents ▸ h.sent k se ((mem_cons.mp hk).resolve_left (Ne.symm (hm k se)))
  case unsent =>
    intro k se hk
    rw [hearlier] at hk
    exact hevents ▸ h.unsent k se hk

/-- The COMPLETE that a sequence waits for lets it go on. -/
theorem Good.done {agent : Agent} {ctoken : Int} (h : Good Settled w next)
    (hawaits : w.ta.awaits agent ctoken = some true) (hsent : ∃ k se, .enqueue k se ∈ w.log ∧ se.token = ctoken) :
    Good Ready { ta := { w.ta with current := w.ta.current + 1 }, log := .done agent ctoken :: w.log } next := by
  obtain ⟨token, k, hreplay, hc, htoken, hlt, hrecent, hearlier⟩ := h.awaited hawaits hsent
  refine ⟨h.tokens.mark rfl (by simp) (by simp), h.fresh.answer rfl hearlier, .ready token (k + 1), ?_, ?_, ?_⟩
  · rw [replay, hreplay, bind_some]
    exact if_pos ⟨rfl, rfl⟩
  · refine ⟨htoken, hlt, ?_⟩
    intro k' se hk'
    have := hrecent k' se ((mem_cons.mp hk').resolve_left (by simp))
    omega
  · show w.ta.current + 1 = ((k + 1 : Nat) : Int)
    omega

/-- A COMPLETE with an error ends the run. -/
theorem Good.failed {agent : Agent} {ctoken agerror : Int} (h : Good Settled w next) (herror : agerror ≠ 0)
    (hawaits : w.ta.awaits agent ctoken = some true) (hsent : ∃ k se, .enqueue k se ∈ w.log ∧ se.token = ctoken) :
    Good Settled { ta := { w.ta with current := -1 },
                   log := .complete agerror w.ta.token w.ta.events.length ::
                     .failed agent ctoken agerror :: w.log } next := by
  obtain ⟨token, k, hreplay, hc, htoken, hlt, hrecent, hearlier⟩ := h.awaited hawaits hsent
  have htokens : Tokens w.ta (.failed agent ctoken agerror :: w.log) next :=
    h.tokens.mark rfl (by simp) (by simp)
  refine ⟨?_, (h.fresh.answer rfl hearlier).cons rfl, .idle, ?_, rfl, rfl⟩
  · exact Tokens.mark (w := ⟨w.ta, .failed agent ctoken agerror :: w.log⟩) htokens rfl (by simp) (by simp)
  · rw [replay, replay, hreplay, bind_some, Phase.step, if_pos ⟨rfl, rfl, herror⟩, bind_some,
      Phase.step, if_pos ⟨rfl, htoken⟩]

theorem step_stop (phase : Phase) : phase.step .stop = some .idle := by
  cases phase <;> rfl

theorem Good.reset (h : Good Settled w next) :
    Good Settled { ta := { w.ta with token := -1, current := -1 }, log := .stop :: w.log } next := by
  obtain ⟨phase, hreplay, -⟩ := h.phase
  refine ⟨h.tokens.mark rfl (by simp) (by simp), h.fresh.cons rfl, .idle, ?_, rfl, rfl⟩
  rw [replay, hreplay, bind_some, step_stop]

theorem Good.deleteEvents (h : Good Settled w next) : Good Settled w.deleteEvents next := by
  obtain ⟨phase, hreplay, -⟩ := h.phase
  refine ⟨?_, h.fresh.cons rfl, .idle, ?_, rfl, rfl⟩
  · exact {
      events_lt := fun j se hj => by cases hj
      log_lt := fun k se hk => h.tokens.log_lt k se ((mem_cons.mp hk).resolve_left (by simp))
      distinct := fun j j' se se' hj => by cases hj
      sent := fun k se hk j se' hj => by cases hj
      unsent := fun k se hk j se' hj => by cases hj }
  · show (replay w.log).bind (·.step .stop) = _
    rw [hreplay, bind_some, step_stop]

/-- An event is appended with a token that has not been used. -/
theorem Good.append {se : SchedEvent} (h : Good Settled w next) (hlt : se.token < next)
    (hevents : ∀ (j : Nat) se', w.ta.events[j]? = some se' → se'.token ≠ se.token)
    (hlog : ∀ k se', .enqueue k se' ∈ w.log → se'.token ≠ se.token) :
    Good Settled { w with ta := { w.ta with events := w.ta.events ++ [se] } } next := by
  have hget : ∀ (j : Nat) se', (w.ta.events ++ [se])[j]? = some se' →
      w.ta.events[j]? = some se' ∨ (j = w.ta.events.length ∧ se' = se) := by
    intro j se' hj
    rw [List.getElem?_append] at hj
    split at hj
    · exact Or.inl hj
    · obtain ⟨hz, hse⟩ := List.getElem?_eq_some_iff.mp hj
      rw [length_singleton] at hz
      rw [getElem_singleton] at hse
      exact Or.inr ⟨by omega, hse.symm⟩
  refine ⟨?_, h.fresh, ?_⟩
  · constructor
    case events_lt =>
      intro j se' hj
      rcases hget j se' hj with hj | ⟨-, rfl⟩
      · exact h.tokens.events_lt j se' hj
      · exact hlt
    case log_lt => exact h.tokens.log_lt
    case distinct =>
      intro j j' se₁ se₂ hj hj' heq
      rcases hget j se₁ hj with hold | ⟨hlast, hse⟩
      · rcases hget j' se₂ hj' with hold' | ⟨-, hse'⟩
        · exact h.tokens.distinct j j' se₁ se₂ hold hold' heq
        · exact absurd (hse' ▸ heq) (hevents j se₁ hold)
      · rcases hget j' se₂ hj' with hold' | ⟨hlast', -⟩
        · exact absurd (hse ▸ heq.symm) (hevents j' se₂ hold')
        · omega
    case sent =>
      intro k se₁ hk j se₂ hj heq
      rcases hget j se₂ hj with hj | ⟨hj, rfl⟩
      · exact h.tokens.sent k se₁ hk j se₂ hj heq
      · exact absurd heq.symm (hlog k se₁ (mem_of_mem_recent hk))
    case unsent =>
      intro k se₁ hk j se₂ hj
      rcases hget j se₂ hj with hj | ⟨hj, rfl⟩
      · exact h.tokens.unsent k se₁ hk j se₂ hj
      · exact (hlog k se₁ (mem_of_mem_earlier hk)).symm
  · obtain ⟨phase, hreplay, hat, hsettled⟩ := h.phase
    refine ⟨phase, hreplay, ?_, stable_current hsettled rfl⟩
    cases phase with
    | idle => exact hat
    | ready => exact hsettled.elim
    | failing => exact hat
    | waiting token k agent' ctoken =>
      obtain ⟨hc, ht, ⟨se', hse', hagent⟩, hrecent⟩ := hat
      refine ⟨hc, ht, ⟨se', ?_, hagent⟩, hrecent⟩
      dsimp only
      rw [List.getElem?_append_left (List.getElem?_eq_some_iff.mp hse').1, hse']

end

/-! ## Section 3: All sequences -/

/-- All sequences are settled, but for one that is in a phase with a property. -/
def Inv (i : Nat) (P : TimelineAgent → Phase → Prop) (s : System) : Prop :=
  ∀ (j : Nat) w, s.agents[j]? = some w → w.ta.sequence = true → Good (if j = i then P else Settled) w s.nextToken

def AllSettled (s : System) : Prop :=
  ∀ (j : Nat) w, s.agents[j]? = some w → w.ta.sequence = true → Good Settled w s.nextToken

section

variable {handler : Agent → Option Nat} {s s' : System} {i j : Nat} {w : Watched}
  {P Q : TimelineAgent → Phase → Prop}

theorem inv_settled : Inv i Settled s ↔ AllSettled s := by
  unfold Inv AllSettled
  simp only [ite_self]

theorem getElem?_expand (hw : s.agents[i]? = some w) (j : Nat) :
    (timelineAgentExpand s i).agents[j]? = (s.agents[j]?).map fun w =>
      if i = j then { w with ta := { w.ta with events := renumber s.nextToken w.ta.events } } else w := by
  unfold timelineAgentExpand System.modify
  rw [hw]
  dsimp only
  rw [List.getElem?_modify, Option.map_eq_map]

theorem nextToken_expand (hw : s.agents[i]? = some w) :
    (timelineAgentExpand s i).nextToken = s.nextToken + w.ta.events.length := by
  unfold timelineAgentExpand
  rw [hw]

theorem Inv.expand (h : Inv i P s) (hP : Stable P) (j : Nat) : Inv i P (timelineAgentExpand s j) := by
  cases hw : s.agents[j]? with
  | none =>
    unfold timelineAgentExpand
    rw [hw]
    exact h
  | some w =>
    intro l w' hw' hseq
    rw [getElem?_expand hw] at hw'
    obtain ⟨w₀, hw₀, rfl⟩ := map_eq_some_iff.mp hw'
    rw [nextToken_expand hw]
    have hstable : Stable (if l = i then P else Settled) := by
      split
      · exact hP
      · exact stable_settled
    by_cases hjl : j = l
    · subst hjl
      obtain rfl : w = w₀ := some.inj (hw.symm.trans hw₀)
      rw [if_pos rfl] at hseq ⊢
      exact (h j w hw hseq).renumbered hstable
    · rw [if_neg hjl] at hseq ⊢
      exact (h l w₀ hw₀ hseq).mono (by omega)

theorem Inv.prepare (h : Inv i P s) (hP : Stable P) (agent : Option Agent) :
    Inv i P (schedEventPrepare handler s agent) := by
  unfold schedEventPrepare
  split
  · exact h
  · exact h.expand hP _

theorem Inv.modify {f : Watched → Watched} (h : Inv i P s) (hseq : ∀ w, (f w).ta.sequence = w.ta.sequence)
    (hf : ∀ w, s.agents[i]? = some w → w.ta.sequence = true → Good P w s.nextToken →
      Good Q (f w) s.nextToken) : Inv i Q (s.modify i f) := by
  intro j w hw hw'
  by_cases hj : j = i
  · subst hj
    obtain ⟨w₀, hw₀, rfl⟩ : ∃ w₀, s.agents[j]? = some w₀ ∧ f w₀ = w := by
      unfold System.modify at hw
      dsimp only at hw
      rw [List.getElem?_modify_eq] at hw
      exact map_eq_some_iff.mp hw
    rw [hseq] at hw'
    have hgood := h j w₀ hw₀ hw'
    rw [if_pos rfl] at hgood ⊢
    exact hf w₀ hw₀ hw' hgood
  · rw [getElem?_modify_ne hj] at hw
    have hgood := h j w hw hw'
    rw [if_neg hj] at hgood ⊢
    exact hgood

theorem AllSettled.modify_timeline {f : Watched → Watched} (h : AllSettled s)
    (hseq : ∀ w, (f w).ta.sequence = w.ta.sequence)
    (hi : ∀ w, s.agents[i]? = some w → w.ta.sequence = false) : AllSettled (s.modify i f) := by
  refine inv_settled.mp ((inv_settled.mpr h).modify hseq fun w hw hw' => ?_)
  rw [hi w hw] at hw'
  cases hw'

theorem Inv.enqueueCopy {se : SchedEvent} (h : Inv i Ready s) (hw : s.agents[i]? = some w)
    (hse : w.ta.events[w.ta.current.toNat]? = some se) :
    Inv i (if se.sendsComplete then Settled else Advancing)
      (schedEventEnqueueCopy handler s i w.ta.current.toNat se) := by
  have hmark : Inv i (if se.sendsComplete then Settled else Advancing)
      (s.modify i fun w' => { w' with log := .enqueue w.ta.current.toNat se :: w'.log }) := by
    refine h.modify (fun _ => rfl) fun w' hw' _ hgood => ?_
    obtain rfl : w = w' := some.inj (hw.symm.trans hw')
    exact hgood.enqueue hse
  refine hmark.prepare ?_ se.agent
  split
  · exact stable_settled
  · exact stable_advancing

theorem Inv.weaken (h : Inv i P s) (hPQ : ∀ w, s.agents[i]? = some w → ∀ phase,
    At w.ta w.log phase → P w.ta phase → Q w.ta phase) : Inv i Q s := by
  intro j w hw hseq
  have hgood := h j w hw hseq
  by_cases hj : j = i
  · subst hj
    rw [if_pos rfl] at hgood ⊢
    obtain ⟨phase, hreplay, hat, hp⟩ := hgood.phase
    exact ⟨hgood.tokens, hgood.fresh, phase, hreplay, hat, hPQ w hw phase hat hp⟩
  · rw [if_neg hj] at hgood ⊢
    exact hgood

theorem ended_of_settled {ta : TimelineAgent} {phase : Phase} (h : Settled ta phase) : Ended ta phase := by
  cases phase with
  | ready => exact h.elim
  | _ => exact h

theorem Inv.enqueueLoop (n : Nat) (h : Inv i Ready s) (hrun : enqueueLoop handler i n s = some s') :
    Inv i Ended s' := by
  induction n generalizing s with
  | zero => cases hrun
  | succ n ih =>
    rw [Sequences.enqueueLoop] at hrun
    split at hrun
    · cases hrun
    rename_i w hw
    split at hrun
    · cases hrun
    rename_i se hse
    have hcopy := @Inv.enqueueCopy handler _ _ _ _ h hw hse
    extract_lets s₁ s₂ at hrun
    cases hsends : se.sendsComplete with
    | true =>
      rw [hsends, if_pos rfl] at hrun hcopy
      obtain rfl := some.inj hrun
      exact hcopy.weaken fun w _ phase _ h => ended_of_settled h
    | false =>
      rw [hsends, if_neg Bool.false_ne_true] at hrun hcopy
      have hadv : Inv i Ready s₂ := hcopy.modify (fun _ => rfl) fun w _ _ hgood => hgood.advance
      split at hrun
      · exact ih hadv hrun
      · rename_i hlast
        obtain rfl := some.inj hrun
        refine hadv.weaken fun w₂ hw₂ phase hat hready => ?_
        -- the index is that of the event after the last one
        have hshapes : s₁.shapes = s.shapes := shapes_enqueueCopy s i _ se
        have hw₁ := shape_of_mem hw
        rw [← hshapes] at hw₁
        obtain ⟨w₁, hw₁, hshape⟩ := exists_of_shape hw₁
        have hmod : s₂.agents[i]? = _ := getElem?_modify_self hw₁
        obtain rfl := some.inj (hmod.symm.trans hw₂)
        simp only [Watched.shape, Prod.mk.injEq] at hshape
        obtain ⟨-, hlen, hcur⟩ := hshape
        cases phase with
        | idle => exact hready.elim
        | waiting => exact hready.elim
        | failing => exact hready.elim
        | ready token k =>
          obtain ⟨-, hle, -⟩ := hat
          refine ⟨hready, ?_⟩
          have hready : w₁.ta.current + 1 = k := hready
          dsimp only at hle ⊢
          omega

/-- A sequence that is given the word puts events on the queue until it is settled. -/
theorem Inv.enqueueNext (h : Inv i Ready s) (hrun : sequenceAgentEnqueueNext handler i s = some s') :
    AllSettled s' := by
  have hfinish : ∀ {s : System}, Inv i Ended s → AllSettled (s.modify i Watched.finish) := by
    intro s h
    refine inv_settled.mp (h.modify ?_ fun w _ _ hgood => hgood.finish)
    intro w
    unfold Watched.finish
    split <;> rfl
  unfold sequenceAgentEnqueueNext at hrun
  split at hrun
  · cases hrun
  rename_i w hw
  split at hrun
  swap
  · cases hrun
  split at hrun
  · rename_i hcount
    obtain rfl := some.inj hrun
    refine hfinish (h.weaken fun w' hw' phase _ hready => ?_)
    obtain rfl : w = w' := some.inj (hw.symm.trans hw')
    cases phase with
    | idle => exact hready.elim
    | waiting => exact hready.elim
    | failing => exact hready.elim
    | ready token k =>
      have hk : w.ta.current = k := hready
      exact ⟨hk, by omega⟩
  · obtain ⟨s₁, hs₁, rfl⟩ := map_eq_some_iff.mp hrun
    exact hfinish (h.enqueueLoop _ hs₁)

/-! ## Section 4: What is done to the others -/

/-- An agent has been given new tokens at most. -/
def RenewedAt (s s' : System) (j : Nat) : Prop :=
  ∀ w', s'.agents[j]? = some w' → ∃ w, s.agents[j]? = some w ∧ w'.log = w.log ∧
    w'.ta.sequence = w.ta.sequence ∧ w'.ta.current = w.ta.current ∧
    ∀ (k : Nat) se, w'.ta.events[k]? = some se → w.ta.events[k]? = some se ∨ s.nextToken ≤ se.token

/-- All agents but one have been given new tokens at most. -/
structure Renewed (s s' : System) (i : Nat) : Prop where
  next_le : s.nextToken ≤ s'.nextToken
  others : ∀ j, j ≠ i → RenewedAt s s' j

theorem RenewedAt.refl (s : System) (j : Nat) : RenewedAt s s j :=
  fun w hw => ⟨w, hw, rfl, rfl, rfl, fun _ _ h => Or.inl h⟩

theorem RenewedAt.trans {s'' : System} (h : RenewedAt s s' j) (hle : s.nextToken ≤ s'.nextToken)
    (h' : RenewedAt s' s'' j) : RenewedAt s s'' j := by
  intro w'' hw''
  obtain ⟨w', hw', hlog', hseq', hcur', hevents'⟩ := h' w'' hw''
  obtain ⟨w, hw, hlog, hseq, hcur, hevents⟩ := h w' hw'
  refine ⟨w, hw, hlog'.trans hlog, hseq'.trans hseq, hcur'.trans hcur, fun k se hse => ?_⟩
  rcases hevents' k se hse with hse | hse
  · exact hevents k se hse
  · exact Or.inr (hle.trans hse)

theorem Renewed.trans {s'' : System} (h : Renewed s s' i) (h' : Renewed s' s'' i) : Renewed s s'' i :=
  ⟨h.next_le.trans h'.next_le, fun j hj => (h.others j hj).trans h.next_le (h'.others j hj)⟩

theorem renewed_modify (s : System) (i : Nat) (f : Watched → Watched) : Renewed s (s.modify i f) i :=
  ⟨le_rfl, fun _ hj w hw => ⟨w, getElem?_modify_ne hj ▸ hw, rfl, rfl, rfl, fun _ _ h => Or.inl h⟩⟩

theorem renewedAt_prepare (s : System) (agent : Option Agent) (j : Nat) :
    s.nextToken ≤ (schedEventPrepare handler s agent).nextToken ∧
      RenewedAt s (schedEventPrepare handler s agent) j := by
  unfold schedEventPrepare
  split
  · exact ⟨le_rfl, .refl s j⟩
  rename_i i _
  cases hw : s.agents[i]? with
  | none =>
    unfold timelineAgentExpand
    rw [hw]
    exact ⟨le_rfl, .refl s j⟩
  | some w =>
    rw [nextToken_expand hw]
    refine ⟨by omega, fun w' hw' => ?_⟩
    rw [getElem?_expand hw] at hw'
    obtain ⟨w₀, hw₀, rfl⟩ := map_eq_some_iff.mp hw'
    split
    · refine ⟨w₀, hw₀, rfl, rfl, rfl, fun k se hse => Or.inr ?_⟩
      dsimp only at hse
      rw [getElem?_renumber] at hse
      obtain ⟨_, -, rfl⟩ := map_eq_some_iff.mp hse
      dsimp only
      omega
    · exact ⟨w₀, hw₀, rfl, rfl, rfl, fun _ _ h => Or.inl h⟩

theorem renewed_enqueueCopy (s : System) (i k : Nat) (se : SchedEvent) :
    Renewed s (schedEventEnqueueCopy handler s i k se) i := by
  unfold schedEventEnqueueCopy
  exact (renewed_modify s i _).trans
    ⟨(renewedAt_prepare _ se.agent i).1, fun j _ => (renewedAt_prepare _ se.agent j).2⟩

theorem renewed_enqueueLoop (n : Nat) (hrun : Sequences.enqueueLoop handler i n s = some s') : Renewed s s' i := by
  induction n generalizing s with
  | zero => cases hrun
  | succ n ih =>
    rw [Sequences.enqueueLoop] at hrun
    split at hrun
    · cases hrun
    rename_i w _
    split at hrun
    · cases hrun
    rename_i se _
    have hcopy : Renewed s (schedEventEnqueueCopy handler s i w.ta.current.toNat se) i :=
      renewed_enqueueCopy s i w.ta.current.toNat se
    extract_lets s₁ s₂ at hrun
    split at hrun
    · obtain rfl := some.inj hrun
      exact hcopy
    · have hadv : Renewed s s₂ i := hcopy.trans (renewed_modify _ i _)
      split at hrun
      · exact hadv.trans (ih hrun)
      · obtain rfl := some.inj hrun
        exact hadv

theorem renewed_enqueueNext (hrun : sequenceAgentEnqueueNext handler i s = some s') : Renewed s s' i := by
  unfold sequenceAgentEnqueueNext at hrun
  split at hrun
  · cases hrun
  split at hrun
  swap
  · cases hrun
  split at hrun
  · obtain rfl := some.inj hrun
    exact renewed_modify s i _
  · obtain ⟨s₁, hs₁, rfl⟩ := map_eq_some_iff.mp hrun
    exact (renewed_enqueueLoop _ hs₁).trans (renewed_modify s₁ i _)

/-- A sequence that takes a COMPLETE has sent its token. -/
def Asked (agent : Agent) (ctoken : Int) (s : System) (i : Nat) : Prop :=
  ∀ w, s.agents[i]? = some w → w.ta.sequence = true → w.ta.awaits agent ctoken = some true →
    ∃ k se, .enqueue k se ∈ w.log ∧ se.token = ctoken

theorem Asked.renewed {agent : Agent} {ctoken : Int} (h : Asked agent ctoken s j) (hr : RenewedAt s s' j)
    (hlt : ctoken < s.nextToken) : Asked agent ctoken s' j := by
  intro w' hw' hseq hawaits
  obtain ⟨w, hw, hlog, hseq', hcur, hevents⟩ := hr w' hw'
  rw [hlog]
  refine h w hw (hseq' ▸ hseq) ?_
  unfold TimelineAgent.awaits at hawaits ⊢
  rw [hcur] at hawaits
  split at hawaits
  swap
  · cases hawaits
  rename_i hpos
  obtain ⟨se, hse, heq⟩ := map_eq_some_iff.mp hawaits
  rcases hevents _ se hse with hold | hnew
  · rw [if_pos hpos, hold]
    exact congrArg some heq
  · simp only [Bool.and_eq_true, decide_eq_true_eq] at heq
    omega

theorem AllSettled.handleComplete {agent : Agent} {ctoken agerror : Int} (h : AllSettled s)
    (hasked : Asked agent ctoken s i) (hrun : sequenceHandleComplete handler agent ctoken agerror s i = some s') :
    AllSettled s' ∧ (s' = s ∨ (ctoken < s.nextToken ∧ Renewed s s' i)) := by
  unfold sequenceHandleComplete at hrun
  split at hrun
  · obtain rfl := some.inj hrun
    exact ⟨h, Or.inl rfl⟩
  rename_i w hw
  split at hrun
  · obtain rfl := some.inj hrun
    exact ⟨h, Or.inl rfl⟩
  rename_i hseq
  rw [Bool.not_eq_true', Bool.not_eq_false] at hseq
  split at hrun
  · cases hrun
  · obtain rfl := some.inj hrun
    exact ⟨h, Or.inl rfl⟩
  rename_i hawaits
  have hgood := h i w hw hseq
  have hsent := hasked w hw hseq hawaits
  have hlt : ctoken < s.nextToken := by
    obtain ⟨k, se, hmem, rfl⟩ := hsent
    exact hgood.tokens.log_lt k se hmem
  have hinv : Inv i Settled s := inv_settled.mpr h
  split at hrun
  · have hdone : Inv i Ready (s.modify i fun w =>
        { ta := { w.ta with current := w.ta.current + 1 }, log := .done agent ctoken :: w.log }) := by
      refine hinv.modify (fun _ => rfl) fun w' hw' _ hgood => ?_
      obtain rfl : w = w' := some.inj (hw.symm.trans hw')
      exact hgood.done hawaits hsent
    exact ⟨hdone.enqueueNext hrun, Or.inr ⟨hlt, (renewed_modify s i _).trans (renewed_enqueueNext hrun)⟩⟩
  · rename_i herror
    obtain rfl := some.inj hrun
    refine ⟨inv_settled.mp (hinv.modify (fun _ => rfl) fun w' hw' _ hgood => ?_),
      Or.inr ⟨hlt, renewed_modify s i _⟩⟩
    obtain rfl : w = w' := some.inj (hw.symm.trans hw')
    exact hgood.failed herror hawaits hsent

theorem AllSettled.handleCompletes {agent : Agent} {ctoken agerror : Int} {is : List Nat} (hnodup : is.Nodup)
    (h : AllSettled s) (hasked : ∀ i ∈ is, Asked agent ctoken s i)
    (hrun : is.foldlM (sequenceHandleComplete handler agent ctoken agerror) s = some s') : AllSettled s' := by
  induction is generalizing s with
  | nil =>
    obtain rfl := some.inj hrun
    exact h
  | cons i is ih =>
    rw [foldlM_cons] at hrun
    obtain ⟨s₁, hs₁, hrun⟩ := bind_eq_some_iff.mp hrun
    obtain ⟨hi, hnodup⟩ := nodup_cons.mp hnodup
    obtain ⟨h₁, hsame⟩ := h.handleComplete (hasked i mem_cons_self) hs₁
    refine ih hnodup h₁ ?_ hrun
    intro j hj
    have hasked := hasked j (mem_cons_of_mem _ hj)
    rcases hsame with rfl | ⟨hlt, hr⟩
    · exact hasked
    · exact hasked.renewed (hr.others j fun h => hi (h ▸ hj)) hlt

theorem AllSettled.number (h : AllSettled s) (token : Option Int) : AllSettled (s.number token).1 := by
  cases token with
  | some token => exact h
  | none => exact fun j w hw hseq => (h j w hw hseq).mono (Int.le_add_one le_rfl)

theorem AllSettled.prepare (h : AllSettled s) (agent : Option Agent) :
    AllSettled (schedEventPrepare handler s agent) :=
  inv_settled.mp ((inv_settled (i := 0)).mpr h |>.prepare stable_settled agent)

theorem AllSettled.append (h : AllSettled s) (i : Nat) (agent : Option Agent) (sendsComplete : Bool)
    (hstep : s.step handler (.append i agent none sendsComplete) = some s') : AllSettled s' := by
  obtain rfl := some.inj hstep
  have hprepared : AllSettled (schedEventPrepare handler (s.number none).1 agent) := (h.number none).prepare agent
  refine inv_settled.mp ((inv_settled.mpr hprepared).modify (fun _ => rfl) ?_)
  intro w hw hseq hgood
  obtain ⟨hle, hrenewed⟩ : (s.number none).1.nextToken ≤
        (schedEventPrepare handler (s.number none).1 agent).nextToken ∧
      RenewedAt (s.number none).1 (schedEventPrepare handler (s.number none).1 agent) i :=
    renewedAt_prepare (s.number none).1 agent i
  have hnext : (s.number none).1.nextToken = s.nextToken + 1 := rfl
  rw [hnext] at hle
  -- the agent as it was before the event came
  obtain ⟨w₀, hw₀, hlog, hseq₀, -, hevents⟩ := hrenewed w hw
  have hold := h i w₀ hw₀ (hseq₀ ▸ hseq)
  have htoken : (s.number none).2 = s.nextToken := rfl
  refine hgood.append ?_ ?_ ?_
  · dsimp only
    omega
  · intro j se hj
    dsimp only
    rcases hevents j se hj with hj | hj
    · have := hold.tokens.events_lt j se hj
      omega
    · omega
  · intro k se hk
    rw [hlog] at hk
    have := hold.tokens.log_lt k se hk
    dsimp only
    omega

theorem AllSettled.sequenceImmediate {evtype : EventType} {token : Int} (h : AllSettled s)
    (hw : s.agents[i]? = some w) (hok : InputOk s (.request i evtype token)) (hseq : w.ta.sequence = true)
    (hrun : sequenceAgentImmediate handler s i w evtype token = some s') : AllSettled s' := by
  have hinv : Inv i Settled s := inv_settled.mpr h
  have hstart : evtype = .start ∨ evtype = .run → (if w.ta.current ≠ -1 then some s
      else if 0 < w.ta.events.length then
        sequenceAgentEnqueueNext handler i (s.modify i fun w =>
          { ta := { w.ta with token := token, current := 0 }, log := .start token :: w.log })
      else some s) = some s' → AllSettled s' := by
    intro hevtype hrun
    split at hrun
    · obtain rfl := some.inj hrun
      exact h
    rename_i hidle
    rw [not_not] at hidle
    split at hrun
    swap
    · obtain rfl := some.inj hrun
      exact h
    refine Inv.enqueueNext (i := i) ?_ hrun
    refine hinv.modify (fun _ => rfl) fun w' hw' _ hgood => ?_
    obtain rfl : w = w' := some.inj (hw.symm.trans hw')
    refine hgood.start hidle token fun k se hk j se' hj heq => ?_
    refine hok w (by rw [hw]; simp) hseq hevtype hidle _ hk se' (mem_of_getElem? hj) ?_
    rw [heq]
    rfl
  cases evtype with
  | start => exact hstart (Or.inl rfl) hrun
  | run => exact hstart (Or.inr rfl) hrun
  | reset =>
    obtain rfl := some.inj hrun
    exact inv_settled.mp (hinv.modify (fun _ => rfl) fun w _ _ hgood => hgood.reset)
  | clear =>
    obtain rfl := some.inj hrun
    exact inv_settled.mp (hinv.modify (fun _ => rfl) fun w _ _ hgood => hgood.deleteEvents)
  | other =>
    obtain rfl := some.inj hrun
    exact h

/-- Copies of events of a timeline are enqueued: whoever was settled stays so. -/
theorem AllSettled.enqueueCopies (hi : ∀ {s₁ : System}, s₁.shapes = s.shapes → ∀ w₁, s₁.agents[i]? = some w₁ →
      w₁.ta.sequence = false) (ks : List Nat) {s₁ : System} (h₁ : AllSettled s₁)
    (hshapes : s₁.shapes = s.shapes) :
    AllSettled (ks.foldl (fun s k =>
      match s.agents[i]? with
      | none => s
      | some w =>
        match w.ta.events[k]? with
        | none => s
        | some se => schedEventEnqueueCopy handler s i k se) s₁) ∧
    (ks.foldl (fun s k =>
      match s.agents[i]? with
      | none => s
      | some w =>
        match w.ta.events[k]? with
        | none => s
        | some se => schedEventEnqueueCopy handler s i k se) s₁).shapes = s.shapes := by
  induction ks generalizing s₁ with
  | nil => exact ⟨h₁, hshapes⟩
  | cons k ks ih =>
    rw [foldl_cons]
    split
    · exact ih h₁ hshapes
    split
    · exact ih h₁ hshapes
    · rename_i se _
      have hmark : AllSettled (s₁.modify i fun w => { w with log := .enqueue k se :: w.log }) :=
        h₁.modify_timeline (fun _ => rfl) (hi hshapes)
      exact ih (hmark.prepare se.agent) ((shapes_enqueueCopy s₁ i k se).trans hshapes)

/-- A timeline does not change where the sequences are. -/
theorem AllSettled.timelineImmediate {evtype : EventType} {token : Int} (h : AllSettled s)
    (hw : s.agents[i]? = some w) (hseq : w.ta.sequence = false) :
    AllSettled (timelineAgentImmediate handler s i w evtype token) := by
  have hi : ∀ {s₁ : System}, s₁.shapes = s.shapes → ∀ w₁, s₁.agents[i]? = some w₁ → w₁.ta.sequence = false := by
    intro s₁ hshapes w₁ hw₁
    have hshape := shape_of_mem hw₁
    rw [hshapes, shape_of_mem hw, Option.some.injEq] at hshape
    exact (congrArg Prod.fst hshape).symm.trans hseq
  obtain ⟨hall, hshapes⟩ := AllSettled.enqueueCopies hi (List.range w.ta.events.length) h rfl
  cases evtype with
  | start => exact hall.modify_timeline (fun _ => rfl) (hi hshapes)
  | run => exact hall.modify_timeline (fun _ => rfl) (hi hshapes)
  | clear => exact h.modify_timeline (fun _ => rfl) (hi rfl)
  | reset => exact h
  | other => exact h

theorem AllSettled.step {input : Input} (h : AllSettled s) (hok : InputOk s input)
    (hstep : s.step handler input = some s') : AllSettled s' := by
  cases input with
  | receive agent token =>
    obtain rfl := some.inj hstep
    exact (h.number token).prepare agent
  | append i agent token sendsComplete =>
    obtain rfl : token = none := hok
    exact h.append i agent sendsComplete hstep
  | request i evtype token =>
    unfold System.step at hstep
    dsimp only at hstep
    split at hstep
    · obtain rfl := some.inj hstep
      exact h
    rename_i w hw
    split at hstep
    · rename_i hseq
      exact h.sequenceImmediate hw hok hseq hstep
    · rename_i hseq
      obtain rfl := some.inj hstep
      exact h.timelineImmediate hw (by simpa using hseq)
  | complete agent ctoken agerror =>
    refine h.handleCompletes nodup_range ?_ hstep
    intro i _ w hw hseq hawaits
    obtain ⟨m, hm, hsent⟩ := hok w (mem_of_getElem? hw) hseq hawaits
    cases m with
    | enqueue k se => exact ⟨k, se, hm, some.inj hsent⟩
    | _ => cases hsent

end

/-- Timelines and sequences as they are created. -/
def System.Initial (s : System) : Prop :=
  ∀ w ∈ s.agents, w.log = [] ∧ w.ta.events = [] ∧ w.ta.current = -1

instance (s : System) : Decidable s.Initial :=
  inferInstanceAs (Decidable (∀ w ∈ s.agents, w.log = [] ∧ w.ta.events = [] ∧ w.ta.current = -1))

theorem System.Initial.allSettled {s : System} (h : s.Initial) : AllSettled s := by
  intro j w hw _
  obtain ⟨hlog, hevents, hcurrent⟩ := h w (mem_of_getElem? hw)
  refine ⟨?_, ?_, .idle, ?_, hcurrent, hcurrent⟩
  · exact {
      events_lt := by simp [hevents]
      log_lt := by simp [hlog]
      distinct := by simp [hevents]
      sent := by simp [hevents]
      unsent := by simp [hevents] }
  · intro after m before heq
    rw [hlog] at heq
    simp at heq
  · rw [hlog]
    rfl

theorem System.Initial.inRange {s : System} (h : s.Initial) : s.InRange := by
  intro shape hshape
  obtain ⟨w, hw, rfl⟩ := mem_map.mp hshape
  exact Or.inl (h w hw).2.2

/-- **Sequences run in order.** No run of the scheduler fails, and the index of a sequence is always -1 or
    that of an event. Where no tokens are used twice, the history of each sequence is lawful. -/
theorem sequence_runs {handler : Agent → Option Nat} {start : System} (hstart : start.Initial)
    (inputs : List Input) : ∃ s, run (System.step handler) start inputs = some s ∧
      (∀ w ∈ s.agents, w.ta.current = -1 ∨ (0 ≤ w.ta.current ∧ w.ta.current < w.ta.events.length)) ∧
      (Meets (System.step handler) InputOk start inputs → ∀ w ∈ s.agents, w.ta.sequence = true → Lawful w) := by
  obtain ⟨s, hrun, hrange⟩ := @run_total _ _ (System.step handler) (fun _ _ => True) System.InRange
    (fun s input h _ => step_total h input) start inputs hstart.inRange (meets_of_forall (by simp) _)
  refine ⟨s, hrun, ?_, ?_⟩
  · intro w hw
    exact hrange w.shape (mem_map_of_mem hw)
  · intro hmeets w hw hseq
    have hall := run_inv AllSettled (fun _ _ _ h hok hstep => h.step hok hstep) hstart.allSettled hmeets hrun
    obtain ⟨j, hj⟩ := List.getElem?_of_mem hw
    have hgood := hall j w hj hseq
    obtain ⟨phase, hreplay, -, hsettled⟩ := hgood.phase
    exact ⟨⟨phase, hreplay, hsettled⟩, hgood.fresh⟩

def emptySequence : System := ⟨[⟨⟨true, [], -1, -1⟩, []⟩], 0⟩

/-- The agent 10 is the sequence. -/
def sequenceHandler (agent : Agent) : Option Nat := if agent = 10 then some 0 else none

/-- Two events are appended, and the sequence is run once. -/
def runOnce : List Input :=
  [.append 0 (some 1) none true, .append 0 (some 2) none true, .receive (some 10) none,
    .request 0 .start 2, .complete 1 3 0, .complete 1 3 0, .complete 2 4 0]

theorem sequence_runs_once : ∃ s, run (System.step sequenceHandler) emptySequence runOnce = some s ∧
    (∀ w ∈ s.agents, w.ta.sequence = true → Lawful w) ∧
    s.agents.map (fun w => (w.ta.current, w.log.head?)) = [(-1, some (.complete 0 2 2))] := by
  obtain ⟨s, hrun, -, hlawful⟩ :=
    @sequence_runs sequenceHandler emptySequence (by decide) runOnce
  refine ⟨s, hrun, hlawful (by decide), ?_⟩
  have heq : (run (System.step sequenceHandler) emptySequence runOnce).map
    (fun s => s.agents.map fun w => (w.ta.current, w.log.head?)) = some [(-1, some (.complete 0 2 2))] := by
    decide
  rw [hrun] at heq
  exact some.inj heq

/-- START, RESET and START have all arrived before the first is taken from the queue: both runs send their
    first event with the same token, and the COMPLETE of the first run moves the second one on. -/
theorem stale_complete : ∃ s, run (System.step sequenceHandler) emptySequence
    [.append 0 (some 1) none true, .append 0 (some 2) none true, .receive (some 10) none,
      .receive (some 10) none, .receive (some 10) none, .request 0 .start 2, .request 0 .reset 5,
      .request 0 .start 8, .complete 1 9 0] = some s ∧
    ¬ ∀ w ∈ s.agents, w.ta.sequence = true → Lawful w := by
  refine ⟨_, rfl, fun h => ?_⟩
  have hlawful := h _ mem_cons_self rfl
  have hfresh := hlawful.fresh [.enqueue 1 ⟨some 2, 10, true⟩] (.done 1 9)
    [.enqueue 0 ⟨some 1, 9, true⟩, .start 8, .stop, .enqueue 0 ⟨some 1, 9, true⟩, .start 2] rfl 9 rfl
    0 ⟨some 1, 9, true⟩ (by decide)
  exact hfresh rfl

end Emulab.Sched.Sequences
