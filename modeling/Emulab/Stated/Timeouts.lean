import Emulab.Lib.Machine
import Emulab.Stated.Daemon

/-! # The timeouts of nodes

  A node has an entry in the timeout queue exactly if it has a tag, and the tag
  says what the timeout is for: a command that is pending, or the mode and the
  state that the node is in. `setTimeout` sees to that whenever the mode and the
  state change together with it. The other ways to change one of the three are
  what a run must stay clear of.
-/

namespace Emulab.Stated

open Function

/-! ## The invariant -/

def Pending (tag : Str) : Prop := ∃ command, tag = colon TBCOMMAND command

/-- The tag of the state that a node of the table is in, in a form that an
    expiring timeout finds the state from. -/
structure Current (nodes : Str → Option Node) (n tag mode state : Str) : Prop where
  node : ∃ info, nodes n = some info ∧ info.mode = some mode ∧ info.state = some state
  names : tag = colon mode state
  split : splitTag tag = some (mode, state)
  truthy : truthy mode ∧ truthy state

structure CoherentAt (nodes : Str → Option Node) (d : Daemon) (n : Str) : Prop where
  queued : (d.queue.qfind n).isSome ↔ (d.timeoutTag n).isSome
  tag : ∀ tag, d.timeoutTag n = some tag → Pending tag ∨ ∃ mode state, Current nodes n tag mode state

/-- The bookkeeping is right for all nodes. -/
def Coherent (d : Daemon) : Prop := ∀ n, CoherentAt d.nodes d n

/-- A name that can be told from a tag. -/
def Plain (name : Str) : Prop := truthy name ∧ ':' ∉ name

/-- The timeouts have names that can be told from tags. -/
def Named (rows : List TimeoutRow) : Prop := ∀ r ∈ rows, Plain r.opMode ∧ Plain r.state

theorem splitTag_colon {mode state : Str} (hmode : ':' ∉ mode) (hstate : ':' ∉ state) :
    splitTag (colon mode state) = some (mode, state) := by
  unfold splitTag colon
  rw [List.splitOn_append_cons_self_of_not_mem hmode, List.splitOn_eq_singleton hstate]

section

variable {nodes nodes' : Str → Option Node} {d d' : Daemon} {n : Str}

theorem CoherentAt.congr (h : CoherentAt nodes d n) (hqueue : d'.queue.qfind n = d.queue.qfind n)
    (htag : d'.timeoutTag n = d.timeoutTag n) (hnodes : nodes' n = nodes n) : CoherentAt nodes' d' n where
  queued := by rw [hqueue, htag, h.queued]
  tag tag ht := by
    rw [htag] at ht
    rcases h.tag tag ht with hp | ⟨mode, state, hc⟩
    · exact Or.inl hp
    · exact Or.inr ⟨mode, state, ⟨hnodes ▸ hc.node, hc.names, hc.split, hc.truthy⟩⟩

theorem coherentAt_of_none (hqueue : d.queue.qfind n = none) (htag : d.timeoutTag n = none) :
    CoherentAt nodes d n where
  queued := by simp [hqueue, htag]
  tag tag ht := by
    rw [htag] at ht
    cases ht

end

/-- What an operation leaves alone: the other nodes, and what it reads. -/
structure Frame (node : Str) (d d' : Daemon) : Prop where
  queue : ∀ n, n ≠ node → d'.queue.qfind n = d.queue.qfind n
  tag : ∀ n, n ≠ node → d'.timeoutTag n = d.timeoutTag n
  nodes : ∀ n, n ≠ node → d'.nodes n = d.nodes n
  timeouts : d'.timeouts = d.timeouts
  dbtag : d'.dbtag = d.dbtag

theorem Frame.refl (node : Str) (d : Daemon) : Frame node d d :=
  ⟨fun _ _ => rfl, fun _ _ => rfl, fun _ _ => rfl, rfl, rfl⟩

theorem Frame.trans {node : Str} {d d₁ d' : Daemon} (h : Frame node d d₁) (h' : Frame node d₁ d') :
    Frame node d d' where
  queue n hn := (h'.queue n hn).trans (h.queue n hn)
  tag n hn := (h'.tag n hn).trans (h.tag n hn)
  nodes n hn := (h'.nodes n hn).trans (h.nodes n hn)
  timeouts := h'.timeouts.trans h.timeouts
  dbtag := h'.dbtag.trans h.dbtag

variable {d d' : Daemon}

theorem Frame.coherent {node : Str} (h : Frame node d d') (hd : Coherent d)
    (hnode : CoherentAt d'.nodes d' node) : Coherent d' := by
  intro n
  by_cases hn : n = node
  · exact hn ▸ hnode
  · exact (hd n).congr (h.queue n hn) (h.tag n hn) (h.nodes n hn)

/-! ## `setTimeout` -/

section

variable {now stime : Int} {mode state node : Str} {d : Daemon}

theorem remTimeout_frame (node : Str) (d : Daemon) : Frame node d (remTimeout node d) := by
  unfold remTimeout
  split
  · refine ⟨fun n hn => ?_, fun n hn => update_of_ne hn _ _, fun _ _ => rfl, rfl, rfl⟩
    show (d.queue.qdelete node).qfind n = _
    rw [TimeoutQueue.qfind_qdelete, if_neg hn]
  · exact .refl _ _

theorem remTimeout_none (h : (d.queue.qfind node).isSome ↔ (d.timeoutTag node).isSome) :
    (remTimeout node d).queue.qfind node = none ∧ (remTimeout node d).timeoutTag node = none ∧
      (remTimeout node d).nodes = d.nodes := by
  unfold remTimeout
  split
  · refine ⟨?_, update_self _ _ _, rfl⟩
    show (d.queue.qdelete node).qfind node = none
    rw [TimeoutQueue.qfind_qdelete, if_pos rfl]
  · rename_i hnot
    have hnone : d.queue.qfind node = none := by simpa using hnot
    refine ⟨hnone, ?_, rfl⟩
    rw [h] at hnot
    simpa using hnot

theorem timeouts_mem {rows : List TimeoutRow} {r : TimeoutRow} (h : timeouts rows mode state = some r) :
    r ∈ rows ∧ r.opMode = mode ∧ r.state = state := by
  have hmem := List.mem_of_find?_eq_some h
  have heq := List.find?_some h
  simp only [Bool.and_eq_true, decide_eq_true_eq] at heq
  exact ⟨List.mem_reverse.mp hmem, heq.1, heq.2⟩

theorem setTimeout_frame : Frame node d (setTimeout now mode state node stime d) := by
  have hrem := remTimeout_frame node d
  unfold setTimeout
  dsimp only
  split
  · exact hrem
  split
  · refine hrem.trans ⟨fun n hn => ?_, fun n hn => update_of_ne hn _ _, fun _ _ => rfl, rfl, rfl⟩
    show ((remTimeout node d).queue.qinsert node _).qfind n = _
    rw [TimeoutQueue.qfind_qinsert, if_neg hn]
  · exact hrem

@[simp] theorem setTimeout_nodes : (setTimeout now mode state node stime d).nodes = d.nodes := by
  unfold setTimeout remTimeout
  dsimp only
  split <;> split <;> try split
  all_goals rfl

theorem setTimeout_spec (h : (d.queue.qfind node).isSome ↔ (d.timeoutTag node).isSome) :
    let d' := setTimeout now mode state node stime d
    (d'.queue.qfind node = none ∧ d'.timeoutTag node = none) ∨
      ((d'.queue.qfind node).isSome ∧ d'.timeoutTag node = some (colon mode state) ∧
        ∃ r ∈ d.timeouts, r.opMode = mode ∧ r.state = state) := by
  dsimp only
  obtain ⟨hqueue, htag, -⟩ := remTimeout_none h
  have htimeouts := (remTimeout_frame node d).timeouts
  unfold setTimeout
  dsimp only
  split
  · exact Or.inl ⟨hqueue, htag⟩
  · rename_i deadline hdeadline
    split
    · right
      obtain ⟨r, hr, -⟩ := Option.bind_eq_some_iff.mp hdeadline
      rw [htimeouts] at hr
      refine ⟨?_, update_self _ _ _, r, timeouts_mem hr⟩
      show (((remTimeout node d).queue.qinsert node _).qfind node).isSome
      rw [TimeoutQueue.qfind_qinsert, if_pos rfl]
      rfl
    · exact Or.inl ⟨hqueue, htag⟩

theorem setTimeout_coherentAt (hnamed : Named d.timeouts)
    (h : (d.queue.qfind node).isSome ↔ (d.timeoutTag node).isSome) {nodes : Str → Option Node}
    (hnode : ∃ info, nodes node = some info ∧ info.mode = some mode ∧ info.state = some state) :
    CoherentAt nodes (setTimeout now mode state node stime d) node := by
  rcases @setTimeout_spec now stime mode state node d h with
    ⟨hqueue, htag⟩ | ⟨hqueue, htag, r, hr, rfl, rfl⟩
  · exact coherentAt_of_none hqueue htag
  · refine ⟨by rw [htag]; exact ⟨fun _ => rfl, fun _ => hqueue⟩, fun tag ht => Or.inr ⟨r.opMode, r.state, ?_⟩⟩
    rw [htag] at ht
    obtain rfl := Option.some.inj ht
    obtain ⟨⟨hmode, hmode'⟩, hstate, hstate'⟩ := hnamed r hr
    exact ⟨hnode, rfl, splitTag_colon hmode' hstate', hmode, hstate⟩

theorem setTimeout_command_coherentAt {command : Str} {nodes : Str → Option Node}
    (h : (d.queue.qfind node).isSome ↔ (d.timeoutTag node).isSome) :
    CoherentAt nodes (setTimeout now TBCOMMAND command node stime d) node := by
  rcases @setTimeout_spec now stime TBCOMMAND command node d h with
    ⟨hqueue, htag⟩ | ⟨hqueue, htag, -⟩
  · exact coherentAt_of_none hqueue htag
  · refine ⟨by rw [htag]; exact ⟨fun _ => rfl, fun _ => hqueue⟩, fun tag ht => Or.inl ⟨command, ?_⟩⟩
    rw [htag] at ht
    exact (Option.some.inj ht).symm

end

/-! ## Modes and commands -/

structure Books (d : Daemon) : Prop where
  coherent : Coherent d
  named : Named d.timeouts

theorem Frame.books {node : Str} (h : Frame node d d') (hd : Books d)
    (hnode : CoherentAt d'.nodes d' node) : Books d' :=
  ⟨h.coherent hd.coherent hnode, h.timeouts ▸ hd.named⟩

theorem enter_frame {now : Int} {byStateEvent : Bool} {node mode oldstate newmode newstate : Str}
    {info : Node} {d : Daemon} :
    Frame node d (enter now byStateEvent node info mode oldstate newmode newstate d) :=
  ⟨fun _ _ => rfl, fun _ _ => rfl, fun _ hn => update_of_ne hn _ _, rfl, rfl⟩

theorem updateNode_frame (node : Str) (entry : Option Node) (d : Daemon) :
    Frame node d { d with nodes := update d.nodes node entry } :=
  ⟨fun _ _ => rfl, fun _ _ => rfl, fun _ hn => update_of_ne hn _ _, rfl, rfl⟩

theorem triggers_books {d : Daemon} (hd : Books d) (triggers : Str → Option (List Str)) :
    Books { d with triggers := triggers } :=
  ⟨fun n => (hd.coherent n).congr rfl rfl rfl, hd.named⟩

theorem enter_setTimeout_books {now : Int} {byStateEvent : Bool} {node mode oldstate newmode newstate : Str}
    {info : Node} {d : Daemon} (hd : Books d) :
    Books (setTimeout now newmode newstate node now
      (enter now byStateEvent node info mode oldstate newmode newstate d)) := by
  refine (enter_frame.trans setTimeout_frame).books hd ?_
  rw [setTimeout_nodes]
  exact setTimeout_coherentAt (d := enter now byStateEvent node info mode oldstate newmode newstate d)
    hd.named (hd.coherent node).queued ⟨{ info with state := some newstate, mode := some newmode, timestamp := some now },
      update_self _ _ _, rfl, rfl⟩

theorem opModeTransition_books {now : Int} {lookup : Bool} {node newmode : Str} (hd : Books d)
    (h : opModeTransition now lookup node newmode d = some d') : Books d' := by
  unfold opModeTransition at h
  obtain ⟨info, -, h⟩ := Option.bind_eq_some_iff.mp h
  obtain ⟨mode, -, h⟩ := Option.bind_eq_some_iff.mp h
  obtain ⟨oldstate, -, h⟩ := Option.bind_eq_some_iff.mp h
  obtain ⟨trans, -, h⟩ := Option.bind_eq_some_iff.mp h
  dsimp only at h
  split at h
  · exact Option.some.inj h ▸ enter_setTimeout_books hd
  · cases h

theorem handleCommand_books {now : Int} {params command : Str} {retry : Nat} {force : Bool}
    (hd : Books d) (h : handleCommand now params command retry force d = some d') : Books d' := by
  obtain ⟨nodes, rfl⟩ := handleCommand_cases h
  clear h
  -- one node after the other
  induction nodes generalizing d with
  | nil => exact hd
  | cons node nodes ih =>
    exact ih (setTimeout_frame.books hd (setTimeout_command_coherentAt (hd.coherent node).queued))

theorem update_books {node : Str} {info info' : Node} {d : Daemon} (hd : Books d)
    (hinfo : d.nodes node = some info) (hstate : info'.state = info.state) (hmode : info'.mode = info.mode) :
    Books { d with nodes := update d.nodes node (some info') } := by
  refine (updateNode_frame node (some info') d).books hd ⟨(hd.coherent node).queued, fun tag ht => ?_⟩
  rcases (hd.coherent node).tag tag ht with hp | ⟨mode, state, hc⟩
  · exact Or.inl hp
  · obtain ⟨info₀, hinfo₀, hm, hs⟩ := hc.node
    obtain rfl := Option.some.inj (hinfo.symm.trans hinfo₀)
    exact Or.inr ⟨mode, state, ⟨info', update_self _ _ _, hmode.trans hm, hstate.trans hs⟩,
      hc.names, hc.split, hc.truthy⟩

/-! ## Triggers -/

/-- While the triggers run, RELOAD is not forced on a node with a timeout. -/
def TriggersOk (w : World) (node oldstate : Str) : Nat → List Str → Daemon → Str → Prop
  | _, [], _, _ => True
  | i, trig :: trigs, d, mode =>
    (Trigger.ofText trig = .booting → forcesReload (w.bootWhat i) mode oldstate → d.queue.qfind node = none) ∧
    ∀ d' mode', runTrigger w i node oldstate trig d mode = some (d', mode') →
      TriggersOk w node oldstate (i + 1) trigs d' mode'

variable {w : World}

theorem runTrigger_books {i : Nat} {node oldstate trig mode mode' : Str} (hd : Books d)
    (hok : Trigger.ofText trig = .booting → forcesReload (w.bootWhat i) mode oldstate →
      d.queue.qfind node = none) (h : runTrigger w i node oldstate trig d mode = some (d', mode')) : Books d' := by
  cases runTrigger_cases h with
  | nothing h => exact h ▸ hd
  | opMode lookup newmode h => exact opModeTransition_books hd h
  | command h => exact handleCommand_books hd h
  | node info info' hinfo hstate hmode h =>
    subst h
    rcases hmode with hmode | ⟨htrig, hforces⟩
    · exact update_books hd hinfo hstate hmode
    · have hqueue := hok htrig hforces
      have htag : d.timeoutTag node = none := by
        have hiff := (hd.coherent node).queued
        rw [hqueue] at hiff
        simpa using hiff
      exact (updateNode_frame node _ d).books hd (coherentAt_of_none hqueue htag)

theorem runTriggers_books {i : Nat} {node oldstate mode mode' : Str} {trigs : List Str}
    (hd : Books d) (hok : TriggersOk w node oldstate i trigs d mode)
    (h : runTriggers w node oldstate i trigs d mode = some (d', mode')) : Books d' := by
  induction trigs generalizing i d mode with
  | nil => exact (Prod.mk.inj (Option.some.inj h)).1 ▸ hd
  | cons trig trigs ih =>
    obtain ⟨⟨d₁, mode₁⟩, hone, h⟩ := Option.bind_eq_some_iff.mp h
    exact ih (runTrigger_books hd hok.1 hone) (hok.2 d₁ mode₁ hone) h

/-! ## State transitions -/

theorem checkModeTransition_books {i : Nat} {node mode newstate : Str}
    (hd : Books d) (h : checkModeTransition w i node mode newstate d = some d') : Books d' := by
  unfold checkModeTransition at h
  split at h
  · exact Option.some.inj h ▸ hd
  split at h
  · split at h
    · exact opModeTransition_books hd h
    · exact Option.some.inj h ▸ hd
  · exact Option.some.inj h ▸ hd

/-- The triggers of a state transition force RELOAD on no node with a timeout. -/
def TransitionOk (w : World) (node newstate : Str) (d : Daemon) : Prop :=
  ∀ info mode oldstate, d.nodes node = some info → info.mode = some mode → info.state = some oldstate →
    let newstate := heldState d.soft oldstate (secureState d.valid mode oldstate newstate)
    let d := setTimeout w.now mode newstate node w.now (enter w.now true node info mode oldstate mode newstate d)
    TriggersOk w node oldstate 0 (getNodeTriggerList d.triggers node mode newstate false) d mode

theorem stateTransition_books {node newstate : Str} (hd : Books d)
    (hok : TransitionOk w node newstate d) (h : stateTransition w node newstate d = some d') : Books d' := by
  unfold stateTransition at h
  obtain ⟨info, hinfo, h⟩ := Option.bind_eq_some_iff.mp h
  obtain ⟨mode, hmode, h⟩ := Option.bind_eq_some_iff.mp h
  obtain ⟨oldstate, hold, h⟩ := Option.bind_eq_some_iff.mp h
  have htriggers := hok info mode oldstate hinfo hmode hold
  dsimp only at htriggers
  unfold afterTransition at h
  obtain ⟨⟨d₂, mode₂⟩, htrigs, h⟩ := Option.bind_eq_some_iff.mp h
  have hd₂ := runTriggers_books (enter_setTimeout_books hd) htriggers htrigs
  dsimp only at h
  split at h
  · exact checkModeTransition_books (triggers_books hd₂ _) h
  · exact checkModeTransition_books hd₂ h

/-! ## Control events -/

/-- A `STATE:` action is a state transition. -/
def ActionOk (w : World) (node : Str) (info : Node) (mode state : Str) (d : Daemon) : Prop :=
  mode ≠ TBCOMMAND → info.state ≠ some PXEWAKEUP → ∀ action newstate,
    timeoutAction d.timeouts mode state = some action → matchPath "STATE:".toList action = some newstate →
      TransitionOk w node newstate d

theorem runAction_books {node mode state : Str} {info : Node} (hd : Books d)
    (hinfo : d.nodes node = some info) (hok : ActionOk w node info mode state d)
    (h : runAction w node info mode state d = some d') : Books d' := by
  unfold runAction at h
  dsimp only at h
  split at h
  · obtain ⟨action, -, h⟩ := Option.bind_eq_some_iff.mp h
    split at h
    · exact handleCommand_books hd h
    · exact Option.some.inj h ▸ hd
  rename_i hmode
  obtain ⟨curstate, hcurstate, h⟩ := Option.bind_eq_some_iff.mp h
  split at h
  · exact Option.some.inj h ▸ hd
  rename_i hwakeup
  obtain ⟨action, haction, h⟩ := Option.bind_eq_some_iff.mp h
  split at h
  · split at h
    · obtain rfl := Option.some.inj h
      refine update_books hd hinfo ?_ ?_ <;> rfl
    · exact Option.some.inj h ▸ hd
  split at h
  · exact Option.some.inj h ▸ hd
  split at h
  · rename_i newstate hnew
    have hne : info.state ≠ some PXEWAKEUP := fun heq =>
      hwakeup (Option.some.inj (hcurstate.symm.trans heq))
    exact stateTransition_books hd (hok hmode hne action newstate haction hnew) h
  · exact Option.some.inj h ▸ hd

/-- A control event from outside is no timeout of a node that has one to come. -/
theorem handleCtrlEvent_books {node event : Str} (hd : Books d)
    (hok : w.lookup → event = TIMEOUT → d.queue.qfind node = none)
    (h : handleCtrlEvent w node event d = some d') : Books d' := by
  unfold handleCtrlEvent at h
  split at h
  · exact Option.some.inj h ▸ hd
  rename_i hlookup
  split at h
  · rename_i hevent
    obtain ⟨tag, htag, -⟩ := Option.bind_eq_some_iff.mp h
    have hiff := (hd.coherent node).queued
    rw [hok (not_not.mp hlookup) hevent, htag] at hiff
    simp at hiff
  · exact Option.some.inj h ▸ hd

theorem countTimeout_books {node : Str} {info : Node} {d : Daemon} {deadline : Int} (hd : Books d)
    (hhead : d.queue.qhead = some (deadline, node)) :
    Books (countTimeout node info { d with queue := d.queue.qpop }) := by
  have hframe : Frame node d (countTimeout node info { d with queue := d.queue.qpop }) := by
    refine ⟨fun n hn => ?_, fun n hn => update_of_ne hn _ _,
      fun n hn => update_of_ne hn _ _, rfl, rfl⟩
    show d.queue.qpop.qfind n = d.queue.qfind n
    rw [TimeoutQueue.qfind_qpop hhead, if_neg hn]
  refine hframe.books hd (coherentAt_of_none ?_ (update_self _ _ _))
  show d.queue.qpop.qfind node = none
  rw [TimeoutQueue.qfind_qpop hhead, if_pos rfl]

/-- An expired timeout of a known node is handled: the node is found, and its action forces no RELOAD. -/
def ExpireOk (w : World) (d : Daemon) : Prop :=
  ∀ deadline node info, d.queue.qhead = some (deadline, node) → deadline ≤ w.now → node ≠ [] →
    d.nodes node = some info → w.lookup ∧ ∀ tag mode state, d.timeoutTag node = some tag →
      splitTag tag = some (mode, state) →
        ActionOk w node info.count mode state (countTimeout node info { d with queue := d.queue.qpop })

theorem expire_books (hd : Books d) (hok : ExpireOk w d) (h : expire w d = some d') : Books d' := by
  unfold expire at h
  split at h
  · exact Option.some.inj h ▸ hd
  rename_i deadline node hhead
  split at h
  · rename_i hdue
    dsimp only at h
    split at h
    · rename_i hknown
      obtain ⟨info, hinfo⟩ := Option.isSome_iff_exists.mp hknown
      obtain ⟨hlookup, haction⟩ := hok deadline node info hhead hdue.1 hdue.2 hinfo
      unfold handleCtrlEvent at h
      rw [if_neg (not_not.mpr hlookup), if_pos rfl] at h
      obtain ⟨tag, htag, h⟩ := Option.bind_eq_some_iff.mp h
      obtain ⟨info', hinfo', h⟩ := Option.bind_eq_some_iff.mp h
      obtain ⟨⟨mode, state⟩, hsplit, h⟩ := Option.bind_eq_some_iff.mp h
      obtain rfl : info = info' := Option.some.inj (hinfo.symm.trans hinfo')
      exact runAction_books (countTimeout_books hd hhead) (update_self _ _ _)
        (haction tag mode state htag hsplit) h
    · -- the node is gone
      obtain rfl := Option.some.inj h
      have hframe : Frame node d { d with
          queue := d.queue.qpop
          timeoutTag := update d.timeoutTag node none } := by
        refine ⟨fun n hn => ?_, fun n hn => update_of_ne hn _ _, fun _ _ => rfl, rfl, rfl⟩
        show d.queue.qpop.qfind n = d.queue.qfind n
        rw [TimeoutQueue.qfind_qpop hhead, if_neg hn]
      refine hframe.books hd (coherentAt_of_none ?_ (update_self _ _ _))
      show d.queue.qpop.qfind node = none
      rw [TimeoutQueue.qfind_qpop hhead, if_pos rfl]
  · exact Option.some.inj h ▸ hd

end Emulab.Stated
