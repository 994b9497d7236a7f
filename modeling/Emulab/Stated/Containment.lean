import Emulab.Lib.Machine
import Emulab.Stated.Daemon

/-! # Containment of nodes in SECVIOLATION

  Two routines write the state of a node. A state transition checks the state
  that is asked for; a mode transition takes the next state from the table of
  mode transitions, or keeps the state. So a node leaves SECVIOLATION only
  where the table of mode transitions has a key for that state.
-/

namespace Emulab.Stated

open Function

/-! ## What a change of state may be -/

/-- The rules for one change. -/
structure Contained (soft : Bool) (w : Write) : Prop where
  /-- SECVIOLATION is not left, or softly and by a state event. -/
  stays : w.old = SECVIOLATION → w.new = SECVIOLATION ∨
    (soft ∧ w.byStateEvent ∧ (w.new = SHUTDOWN ∨ w.new = POWEROFF ∨ w.new = GPXEBOOTING))
  /-- In the secure modes a state event takes a valid transition, or goes to SECVIOLATION. -/
  valid : w.byStateEvent → truthy w.old → (w.mode = SECUREBOOT ∨ w.mode = SECURELOAD) →
    w.valid ∨ w.new = SECVIOLATION

def Daemon.states (d : Daemon) : Str → Option Str := fun n => (d.nodes n).bind Node.state

/-- Nodes come and go when the database is read, and those that stay keep their state. -/
def Persists (s s' : Str → Option Str) : Prop := ∀ n v, s n = some v → s' n = none ∨ s' n = some v

/-- The changes lead from the states `s` to the states `s'`, each from the state that the node was in. -/
inductive Follows : (Str → Option Str) → List Write → (Str → Option Str) → Prop where
  | refl (s) : Follows s [] s
  | reload {s s₁ s' ws} : Persists s s₁ → Follows s₁ ws s' → Follows s ws s'
  | write {s s' w ws} : s w.node = some w.old → Follows (update s w.node (some w.new)) ws s' →
      Follows s (w :: ws) s'

theorem Follows.trans {s s₁ s' : Str → Option Str} {ws ws' : List Write} (h : Follows s ws s₁)
    (h' : Follows s₁ ws' s') : Follows s (ws ++ ws') s' := by
  induction h with
  | refl s => exact h'
  | reload hp _ ih => exact .reload hp (ih h')
  | write hold _ ih => exact .write hold (ih h')

/-- From `d` to `d'` every change of a state is on record and kept the rules. -/
structure Kept (d d' : Daemon) : Prop where
  soft : d'.soft = d.soft
  writes : ∃ ws, d'.writes = d.writes ++ ws ∧ (∀ w ∈ ws, Contained d.soft w) ∧ Follows d.states ws d'.states

theorem Kept.refl (d : Daemon) : Kept d d where
  soft := rfl
  writes := ⟨[], (List.append_nil _).symm, by simp, .refl _⟩

theorem Kept.trans {d d₁ d' : Daemon} (h : Kept d d₁) (h' : Kept d₁ d') : Kept d d' where
  soft := h'.soft.trans h.soft
  writes := by
    obtain ⟨ws, heq, hall, hfollows⟩ := h.writes
    obtain ⟨ws', heq', hall', hfollows'⟩ := h'.writes
    refine ⟨ws ++ ws', by rw [heq', heq, List.append_assoc], fun w hw => ?_, hfollows.trans hfollows'⟩
    rcases List.mem_append.mp hw with hw | hw
    · exact hall w hw
    · exact h.soft ▸ hall' w hw

/-- No key of the mode transitions is that of SECVIOLATION in some mode. -/
def NoExit (rows : List ModeTransRow) : Prop :=
  ∀ r ∈ rows, ∀ mode, colon r.opMode1 r.state1 ≠ colon mode SECVIOLATION

/-- `Kept`, the tables being the same. -/
structure Moves (d d' : Daemon) : Prop extends Kept d d' where
  modeTrans : d'.modeTrans = d.modeTrans

theorem Moves.refl (d : Daemon) : Moves d d := ⟨.refl d, rfl⟩

theorem Moves.trans {d d₁ d' : Daemon} (h : Moves d d₁) (h' : Moves d₁ d') : Moves d d' :=
  ⟨h.toKept.trans h'.toKept, h'.modeTrans.trans h.modeTrans⟩

/-! ## What changes no state -/

/-- A daemon that differs in nothing that the rules are about. -/
structure SameStates (d d' : Daemon) : Prop where
  soft : d'.soft = d.soft
  writes : d'.writes = d.writes
  states : d'.states = d.states
  modeTrans : d'.modeTrans = d.modeTrans

variable {d d' : Daemon}

theorem SameStates.moves (h : SameStates d d') : Moves d d' where
  soft := h.soft
  writes := ⟨[], by rw [h.writes, List.append_nil], by simp, h.states ▸ .refl _⟩
  modeTrans := h.modeTrans

theorem remTimeout_same (node : Str) (d : Daemon) : SameStates d (remTimeout node d) := by
  unfold remTimeout
  split <;> exact ⟨rfl, rfl, rfl, rfl⟩

theorem SameStates.trans {d d₁ d' : Daemon} (h : SameStates d d₁) (h' : SameStates d₁ d') : SameStates d d' :=
  ⟨h'.soft.trans h.soft, h'.writes.trans h.writes, h'.states.trans h.states, h'.modeTrans.trans h.modeTrans⟩

theorem setTimeout_same (now : Int) (mode state node : Str) (stime : Int) (d : Daemon) :
    SameStates d (setTimeout now mode state node stime d) := by
  have hrem := remTimeout_same node d
  unfold setTimeout
  dsimp only
  split
  · exact hrem
  · split
    · exact hrem.trans ⟨rfl, rfl, rfl, rfl⟩
    · exact hrem

theorem update_same {node : Str} {info info' : Node} {d : Daemon} (hinfo : d.nodes node = some info)
    (hstate : info'.state = info.state) : SameStates d { d with nodes := update d.nodes node (some info') } where
  soft := rfl
  writes := rfl
  states := by
    funext n
    show (update d.nodes node (some info') n).bind Node.state = (d.nodes n).bind Node.state
    by_cases hn : n = node
    · rw [hn, update_self, hinfo]
      exact hstate
    · rw [update_of_ne hn]
  modeTrans := rfl

theorem triggers_same (d : Daemon) (triggers : Str → Option (List Str)) :
    SameStates d { d with triggers := triggers } := ⟨rfl, rfl, rfl, rfl⟩

theorem handleCommand_same {now : Int} {params command : Str} {retry : Nat} {force : Bool}
    (h : handleCommand now params command retry force d = some d') : SameStates d d' := by
  obtain ⟨nodes, rfl⟩ := handleCommand_cases h
  clear h
  -- one timeout for each node
  induction nodes generalizing d with
  | nil => exact ⟨rfl, rfl, rfl, rfl⟩
  | cons node nodes ih => exact (setTimeout_same now _ _ _ _ d).trans ih

/-! ## The two routines that write states -/

/-- One write, of a change that keeps the rules. -/
theorem enter_moves {now : Int} {byStateEvent : Bool} {node : Str} {info : Node}
    {mode oldstate newmode newstate : Str} {d : Daemon} (hinfo : d.nodes node = some info)
    (hold : info.state = some oldstate)
    (hcontained : Contained d.soft ⟨node, byStateEvent, mode, oldstate, newstate,
      isValidTransition d.valid mode oldstate newstate⟩) :
    Moves d (enter now byStateEvent node info mode oldstate newmode newstate d) where
  soft := rfl
  writes := by
    refine ⟨_, rfl, fun w hw => ?_, .write ?_ ?_⟩
    · rw [List.mem_singleton.mp hw]
      exact hcontained
    · show (d.nodes node).bind Node.state = some oldstate
      rw [hinfo]
      exact hold
    · have hstates : (enter now byStateEvent node info mode oldstate newmode newstate d).states =
          update d.states node (some newstate) := by
        funext n
        show (update d.nodes node _ n).bind Node.state = update d.states node _ n
        by_cases hn : n = node
        · rw [hn, update_self, update_self]
          rfl
        · rw [update_of_ne hn, update_of_ne hn]
          rfl
      rw [hstates]
      exact .refl _
  modeTrans := rfl

theorem transState_secviolation {rows : List ModeTransRow} (h : NoExit rows) (mode newmode : Str) :
    transState rows mode SECVIOLATION newmode = some none := by
  have hnil : modeTrans rows (colon mode SECVIOLATION) = [] := by
    unfold modeTrans
    rw [List.map_eq_nil_iff, List.filter_eq_nil_iff]
    intro r hr
    simpa using h r hr mode
  unfold transState
  rw [hnil]

theorem opModeTransition_moves {now : Int} {lookup : Bool} {node newmode : Str}
    (hno : NoExit d.modeTrans) (h : opModeTransition now lookup node newmode d = some d') : Moves d d' := by
  unfold opModeTransition at h
  obtain ⟨info, hinfo, h⟩ := Option.bind_eq_some_iff.mp h
  obtain ⟨mode, hmode, h⟩ := Option.bind_eq_some_iff.mp h
  obtain ⟨oldstate, hold, h⟩ := Option.bind_eq_some_iff.mp h
  obtain ⟨trans, htrans, h⟩ := Option.bind_eq_some_iff.mp h
  dsimp only at h
  split at h
  · obtain rfl := Option.some.inj h
    refine (enter_moves hinfo hold ⟨fun hsec => Or.inl ?_, fun hby => by cases hby⟩).trans
      (setTimeout_same _ _ _ _ _ _).moves
    -- out of SECVIOLATION the table leads nowhere
    dsimp only at hsec ⊢
    rw [hsec, transState_secviolation hno] at htrans
    obtain rfl := Option.some.inj htrans
    exact hsec
  · cases h

theorem heldState_contained (soft : Bool) (valid : List ValidRow) (node mode oldstate newstate : Str) :
    Contained soft ⟨node, true, mode, oldstate, heldState soft oldstate (secureState valid mode oldstate newstate),
      isValidTransition valid mode oldstate
        (heldState soft oldstate (secureState valid mode oldstate newstate))⟩ where
  stays hsec := by
    dsimp only at hsec ⊢
    unfold heldState
    split
    · split
      · rename_i hsoft
        exact Or.inr ⟨hsoft.1, rfl, hsoft.2⟩
      · exact Or.inl rfl
    · rename_i hleave
      exact Or.inl (not_not.mp fun hne => hleave ⟨hsec, hne⟩)
  valid _ hold hmode := by
    dsimp only at hold hmode ⊢
    have htruthy : truthy mode = true := by
      rcases hmode with rfl | rfl <;> decide
    by_cases hvalid : isValidTransition valid mode oldstate newstate = true
    · -- the state that was asked for is left as it is, or the node is held
      have hsame : secureState valid mode oldstate newstate = newstate := if_neg fun h => h.2.2.1 hvalid
      rw [hsame]
      unfold heldState
      split
      · split
        · exact Or.inl hvalid
        · exact Or.inr rfl
      · exact Or.inl hvalid
    · have hsec : secureState valid mode oldstate newstate = SECVIOLATION := if_pos ⟨hold, htruthy, hvalid, hmode⟩
      rw [hsec]
      exact Or.inr (if_neg fun h => h.2 rfl)

/-! ## Triggers -/

variable {w : World}

theorem runTrigger_moves {i : Nat} {node oldstate trig mode mode' : Str}
    (hno : NoExit d.modeTrans) (h : runTrigger w i node oldstate trig d mode = some (d', mode')) : Moves d d' := by
  cases runTrigger_cases h with
  | nothing h => exact h ▸ .refl d
  | opMode lookup newmode h => exact opModeTransition_moves hno h
  | command h => exact (handleCommand_same h).moves
  | node info info' hinfo hstate _ h => exact h ▸ (update_same hinfo hstate).moves

theorem runTriggers_moves {i : Nat} {node oldstate mode mode' : Str} {trigs : List Str} (hno : NoExit d.modeTrans)
    (h : runTriggers w node oldstate i trigs d mode = some (d', mode')) : Moves d d' := by
  induction trigs generalizing i d mode with
  | nil => exact (Prod.mk.inj (Option.some.inj h)).1 ▸ .refl d
  | cons trig trigs ih =>
    obtain ⟨⟨d₁, mode₁⟩, hone, h⟩ := Option.bind_eq_some_iff.mp h
    have hmoves := runTrigger_moves hno hone
    exact hmoves.trans (ih (hmoves.modeTrans ▸ hno) h)

theorem checkModeTransition_moves {i : Nat} {node mode newstate : Str}
    (hno : NoExit d.modeTrans) (h : checkModeTransition w i node mode newstate d = some d') : Moves d d' := by
  unfold checkModeTransition at h
  split at h
  · exact Option.some.inj h ▸ .refl d
  split at h
  · split at h
    · exact opModeTransition_moves hno h
    · exact Option.some.inj h ▸ .refl d
  · exact Option.some.inj h ▸ .refl d

theorem stateTransition_moves {node newstate : Str} (hno : NoExit d.modeTrans)
    (h : stateTransition w node newstate d = some d') : Moves d d' := by
  unfold stateTransition at h
  obtain ⟨info, hinfo, h⟩ := Option.bind_eq_some_iff.mp h
  obtain ⟨mode, hmode, h⟩ := Option.bind_eq_some_iff.mp h
  obtain ⟨oldstate, hold, h⟩ := Option.bind_eq_some_iff.mp h
  have hentered := (@enter_moves w.now true node info mode oldstate mode _ d hinfo hold
    (heldState_contained d.soft d.valid node mode oldstate newstate)).trans
    (setTimeout_same w.now mode
      (heldState d.soft oldstate (secureState d.valid mode oldstate newstate)) node w.now _).moves
  refine hentered.trans ?_
  have hno₁ := hentered.modeTrans ▸ hno
  unfold afterTransition at h
  obtain ⟨⟨d₂, mode₂⟩, htrigs, h⟩ := Option.bind_eq_some_iff.mp h
  have htriggers := runTriggers_moves hno₁ htrigs
  refine htriggers.trans ?_
  dsimp only at h
  split at h
  · exact (triggers_same d₂ _).moves.trans (checkModeTransition_moves (htriggers.modeTrans ▸ hno₁) h)
  · exact checkModeTransition_moves (htriggers.modeTrans ▸ hno₁) h

/-! ## Control events -/

theorem countTimeout_same {node : Str} {info : Node} {d : Daemon} (hinfo : d.nodes node = some info) :
    SameStates d (countTimeout node info d) := by
  have htag : SameStates d { d with timeoutTag := update d.timeoutTag node none } := ⟨rfl, rfl, rfl, rfl⟩
  exact htag.trans (update_same hinfo rfl)

theorem runAction_moves {node mode state : Str} {info : Node}
    (hno : NoExit d.modeTrans) (hinfo : d.nodes node = some info)
    (h : runAction w node info mode state d = some d') : Moves d d' := by
  unfold runAction at h
  dsimp only at h
  split at h
  · obtain ⟨action, -, h⟩ := Option.bind_eq_some_iff.mp h
    split at h
    · exact (handleCommand_same h).moves
    · exact Option.some.inj h ▸ .refl _
  obtain ⟨curstate, -, h⟩ := Option.bind_eq_some_iff.mp h
  split at h
  · exact Option.some.inj h ▸ .refl _
  obtain ⟨action, -, h⟩ := Option.bind_eq_some_iff.mp h
  split at h
  · split at h
    · obtain rfl := Option.some.inj h
      refine SameStates.moves (update_same hinfo ?_)
      rfl
    · exact Option.some.inj h ▸ .refl _
  split at h
  · exact Option.some.inj h ▸ .refl _
  split at h
  · exact stateTransition_moves hno h
  · exact Option.some.inj h ▸ .refl _

theorem handleCtrlEvent_moves {node event : Str} (hno : NoExit d.modeTrans)
    (h : handleCtrlEvent w node event d = some d') : Moves d d' := by
  unfold handleCtrlEvent at h
  split at h
  · exact Option.some.inj h ▸ .refl _
  split at h
  · obtain ⟨tag, -, h⟩ := Option.bind_eq_some_iff.mp h
    obtain ⟨info, hinfo, h⟩ := Option.bind_eq_some_iff.mp h
    obtain ⟨⟨mode, state⟩, -, h⟩ := Option.bind_eq_some_iff.mp h
    have hcount := countTimeout_same hinfo
    exact hcount.moves.trans (runAction_moves (hcount.modeTrans ▸ hno) (update_self _ _ _) h)
  · exact Option.some.inj h ▸ .refl _

/-! ## Reading the database -/

def Agrees (d : Daemon) (rows : List Row) : Prop :=
  ∀ row ∈ rows, ∀ info, d.nodes row.node = some info → row.state = info.state

theorem newTimeout_same (now : Int) (row : Row) (d : Daemon) : SameStates d (newTimeout now row d) := by
  have hrefl : SameStates d d := ⟨rfl, rfl, rfl, rfl⟩
  unfold newTimeout
  split
  · exact hrefl
  split
  · split
    · exact setTimeout_same _ _ _ _ _ _
    · exact remTimeout_same _ _
  · exact hrefl

theorem readState_same {now : Int} {oldnodes nodes nodes' : Str → Option Node} {row : Row}
    (hagrees : ∀ info, oldnodes row.node = some info → row.state = info.state)
    (h : readState now oldnodes (d, nodes) row = some (d', nodes')) :
    SameStates d d' ∧ ∃ entry, nodes' = update nodes row.node entry ∧ entry.bind Node.state = row.state := by
  unfold readState at h
  dsimp only at h
  have htag : SameStates d (if d.dbtag ≠ row.tag.getD [] then remTimeout row.node d else d) := by
    split
    · exact remTimeout_same _ _
    · exact ⟨rfl, rfl, rfl, rfl⟩
  generalize (if d.dbtag ≠ row.tag.getD [] then remTimeout row.node d else d) = d₁ at h htag
  obtain ⟨keep, hkeep, h⟩ := Option.bind_eq_some_iff.mp h
  cases keep with
  | true =>
    obtain ⟨rfl, rfl⟩ := Prod.mk.inj (Option.some.inj h)
    refine ⟨htag, _, rfl, ?_⟩
    cases hold : oldnodes row.node with
    | none =>
      rw [hold] at hkeep
      cases hkeep
    | some info => exact (hagrees info hold).symm
  | false =>
    obtain ⟨rfl, rfl⟩ := Prod.mk.inj (Option.some.inj h)
    exact ⟨htag.trans (newTimeout_same _ _ _), _, rfl, rfl⟩

theorem readStates_same {now : Int} {oldnodes : Str → Option Node} {rows : List Row}
    {nodes nodes' : Str → Option Node}
    (hagrees : ∀ row ∈ rows, ∀ info, oldnodes row.node = some info → row.state = info.state)
    (h : rows.foldlM (readState now oldnodes) (d, nodes) = some (d', nodes')) :
    d'.soft = d.soft ∧ d'.writes = d.writes ∧ d'.modeTrans = d.modeTrans ∧ ∀ n,
      nodes' n = nodes n ∨ ∃ row ∈ rows, row.node = n ∧ (nodes' n).bind Node.state = row.state := by
  induction rows generalizing d nodes with
  | nil =>
    obtain ⟨rfl, rfl⟩ := Prod.mk.inj (Option.some.inj h)
    exact ⟨rfl, rfl, rfl, fun n => Or.inl rfl⟩
  | cons row rows ih =>
    obtain ⟨⟨d₁, nodes₁⟩, hone, h⟩ := Option.bind_eq_some_iff.mp h
    obtain ⟨hsoft, hwrites, hmode, hnodes⟩ := ih (fun r hr => hagrees r (List.mem_cons_of_mem _ hr)) h
    have hfirst : SameStates d d₁ ∧ ∃ entry, nodes₁ = update nodes row.node entry ∧
        entry.bind Node.state = row.state := readState_same (hagrees row List.mem_cons_self) hone
    obtain ⟨hsame, entry, rfl, hentry⟩ := hfirst
    refine ⟨hsoft.trans hsame.soft, hwrites.trans hsame.writes, hmode.trans hsame.modeTrans, fun n => ?_⟩
    rcases hnodes n with heq | ⟨r, hr, hrn, heq⟩
    · by_cases hn : n = row.node
      · right
        refine ⟨row, List.mem_cons_self, hn.symm, ?_⟩
        rw [heq, hn, update_self, hentry]
      · left
        rw [heq, update_of_ne hn]
    · exact Or.inr ⟨r, List.mem_cons_of_mem _ hr, hrn, heq⟩

theorem reload_kept (hagrees : Agrees d w.db.rows) (h : reload w d = some d') :
    Kept d d' ∧ d'.modeTrans = w.db.modeTrans := by
  unfold reload at h
  obtain ⟨⟨d₁, nodes⟩, hread, h⟩ := Option.bind_eq_some_iff.mp h
  obtain rfl := Option.some.inj h
  obtain ⟨hsoft, hwrites, hmode, hnodes⟩ := readStates_same hagrees hread
  refine ⟨⟨hsoft, [], by rw [List.append_nil]; exact hwrites, by simp, .reload ?_ (.refl _)⟩, hmode⟩
  intro n v hv
  show (nodes n).bind Node.state = none ∨ (nodes n).bind Node.state = some v
  rcases hnodes n with heq | ⟨row, hrow, rfl, heq⟩
  · left
    rw [heq]
    rfl
  · right
    obtain ⟨info, hinfo, hstate⟩ := Option.bind_eq_some_iff.mp hv
    rw [heq, hagrees row hrow info hinfo, hstate]

/-! ## Runs -/

/-- Whether the database is read in the step. -/
def Reloads (d : Daemon) (x : Input × World) : Prop :=
  match x.1 with
  | .event objtype objname _ => objtype ≠ .command ∧ d.nodes objname = none
  | .expire => False
  | .reload => True

/-- The mode transitions that are read in the step meet `P`, and the database has
    the states that the daemon wrote to it. -/
def ReadsSafely (P : List ModeTransRow → Prop) (d : Daemon) (x : Input × World) : Prop :=
  Reloads d x → P x.2.db.modeTrans ∧ Agrees d x.2.db.rows

theorem dispatch_moves {objtype : ObjType} {objname eventtype : Str}
    (hno : NoExit d.modeTrans) (h : dispatch w objtype objname eventtype d = some d') : Moves d d' := by
  cases objtype with
  | nodeState => exact stateTransition_moves hno h
  | nodeOpMode => exact opModeTransition_moves hno h
  | control => exact handleCtrlEvent_moves hno h
  | command => exact (handleCommand_same h).moves

theorem step_kept {x : Input × World} (hno : NoExit d.modeTrans) (hsafe : ReadsSafely NoExit d x)
    (h : step d x = some d') : Kept d d' ∧ NoExit d'.modeTrans := by
  have hmoves : ∀ {d₁ d₂ : Daemon}, NoExit d₁.modeTrans → Moves d₁ d₂ → Kept d₁ d₂ ∧ NoExit d₂.modeTrans :=
    fun hno hmoves => ⟨hmoves.toKept, hmoves.modeTrans ▸ hno⟩
  obtain ⟨input, w⟩ := x
  cases input with
  | event objtype objname eventtype =>
    obtain ⟨d₁, hprepare, h⟩ := Option.bind_eq_some_iff.mp (show handleEvent w _ _ _ d = some d' from h)
    have hfirst : Kept d d₁ ∧ NoExit d₁.modeTrans := by
      unfold prepare at hprepare
      split at hprepare
      · rename_i hunknown
        obtain ⟨hno', hagrees⟩ := hsafe hunknown
        obtain ⟨hkept, hmode⟩ := reload_kept hagrees hprepare
        exact ⟨hkept, hmode ▸ hno'⟩
      · exact Option.some.inj hprepare ▸ ⟨.refl d, hno⟩
    split at h
    · obtain ⟨hkept, hno'⟩ := hmoves hfirst.2 (dispatch_moves hfirst.2 h)
      exact ⟨hfirst.1.trans hkept, hno'⟩
    · exact Option.some.inj h ▸ hfirst
  | expire =>
    have h : expire w d = some d' := h
    unfold expire at h
    split at h
    · exact Option.some.inj h ▸ ⟨.refl d, hno⟩
    split at h
    · have hpop : SameStates d { d with queue := d.queue.qpop } := ⟨rfl, rfl, rfl, rfl⟩
      dsimp only at h
      split at h
      · exact hmoves hno (hpop.moves.trans (handleCtrlEvent_moves (hpop.modeTrans ▸ hno) h))
      · obtain rfl := Option.some.inj h
        exact hmoves hno (SameStates.moves ⟨rfl, rfl, rfl, rfl⟩)
    · exact Option.some.inj h ▸ ⟨.refl d, hno⟩
  | reload =>
    obtain ⟨hno', hagrees⟩ := hsafe trivial
    obtain ⟨hkept, hmode⟩ := reload_kept hagrees h
    exact ⟨hkept, hmode ▸ hno'⟩

def heldNode (mode : Str) (modeTrans : List ModeTransRow) : Daemon :=
  { Daemon.start false [] with
    modeTrans := modeTrans
    nodes := update (fun _ => none) "pc1".toList
      (some { state := some SECVIOLATION, mode := some mode, timestamp := some 1 }) }

def emptyWorld : World where
  now := 2
  lookup := true
  lookupSync _ := true
  nextOpMode _ := none
  bootWhat _ := (none, none)
  redirect := true
  db := { timeouts := [], valid := [], modeTrans := [], triggers := [], rows := [], nodup := .nil }

theorem heldNode_reads (P : List ModeTransRow → Prop) (mode : Str) (modeTrans : List ModeTransRow)
    (objtype : ObjType) (eventtype : Str) :
    Machine.Meets step (ReadsSafely P) (heldNode mode modeTrans)
      [(.event objtype "pc1".toList eventtype, emptyWorld)] := by
  refine ⟨fun hreloads => ?_, fun _ _ => trivial⟩
  have hnone : (heldNode mode modeTrans).nodes "pc1".toList = none := hreloads.2
  simp [heldNode] at hnone

theorem getLast?_colon (a b : Str) : (colon a b).getLast? = some ((':' :: b).getLast (by simp)) := by
  rw [colon, List.getLast?_append_of_ne_nil _ (by simp), List.getLast?_eq_some_getLast]

end Emulab.Stated
