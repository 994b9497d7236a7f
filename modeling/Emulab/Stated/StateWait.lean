import Emulab.Lib.Machine
import Emulab.Stated.Tables

/-! # Waiting for states

  `StateWait` keeps, for each node that is waited for, the states that it has yet
  to be seen in. A node comes off when the list is empty or when a failure is
  reported, and the loop waits until as many nodes are off as were asked for. The
  count is that of a list of nodes, the table that of a set; and a cancellation
  looks up the number of its arguments, not the node.
-/

namespace Emulab.Stated

open Machine Function

/-! ## Section 1: Model -/

/-- The object type of a failure. No such constant is defined, so Perl takes the name itself. -/
def TBDB_TBEVENT_TBFAILED : Str := "TBDB_TBEVENT_TBFAILED".toList

local instance lawfulNodeName : LawfulBEq Str := inferInstance

structure Wait where
  done : List Str
  failures : List Str
  nodecount : Int
  remain : Str → Option (List Str)

/-- An event as far as `doEvent` looks at it -/
structure NodeEvent where
  objtype : Str
  objname : Str
  eventtype : Str

namespace Wait

/-- `initStateWait`, apart from the subscription -/
def initStateWait (states nodes : List Str) : Wait where
  done := []
  failures := []
  nodecount := nodes.length
  remain n := if n ∈ nodes then some states else none

/-- The first part of `doEvent` -/
def doFailure (w : Wait) (ev : NodeEvent) : Wait :=
  if (w.remain ev.objname).isSome ∧ ev.objtype = TBDB_TBEVENT_TBFAILED then
    { w with
      failures := w.failures ++ [ev.objname]
      remain := update w.remain ev.objname none }
  else w

/-- The second part: the state that is waited for next comes off. An undefined one is the empty string. -/
def doState (w : Wait) (ev : NodeEvent) : Wait :=
  match w.remain ev.objname with
  | none => w
  | some states =>
    if states.head?.getD [] = ev.eventtype then
      if states.tail = [] then
        { w with
          done := w.done ++ [ev.objname]
          remain := update w.remain ev.objname none }
      else { w with remain := update w.remain ev.objname (some states.tail) }
    else w

def doEvent (w : Wait) (ev : NodeEvent) : Wait := (w.doFailure ev).doState ev

/-- What `my $node = @_` is, with one argument -/
def argumentCount : Str := "1".toList

/-- `cancelWait`. The node that is given is not looked at. -/
def cancelWait (w : Wait) (_node : Str) : Wait :=
  match w.remain argumentCount with
  | none => w
  | some _ =>
    { w with remain := update w.remain argumentCount none, nodecount := w.nodecount - 1 }

/-- `$total` -/
def total (w : Wait) : Int := w.done.length + w.failures.length

/-- The loop of `waitForState`: each poll delivers some events and has the time
    after it. `none` means that it still waits after these polls. -/
def waitLoop (timeout deadline : Int) : Int → Wait → List (List NodeEvent × Int) → Option Wait
  | now, w, polls =>
    if w.total < w.nodecount ∧ now < deadline then
      match polls with
      | [] => none
      | (events, time) :: polls =>
        waitLoop timeout deadline (if 0 < timeout then time else now) (events.foldl doEvent w) polls
    else some w

/-- `waitForState`, begun at the time `start` -/
def waitForState (timeout start : Int) (w : Wait) (polls : List (List NodeEvent × Int)) : Option Wait :=
  let now := if 0 < timeout then start else 0
  waitLoop timeout (if 0 < timeout then now + timeout else 1) now w polls

/-- Whether a node is waited for -/
def Waiting (w : Wait) (n : Str) : Prop := (w.remain n).isSome

/-! ## Section 2: Single calls -/

variable {w : Wait} {ev : NodeEvent} {n : Str}

/-- All that an event can do -/
inductive Does (w : Wait) (ev : NodeEvent) : Wait → Prop where
  | nothing : Does w ev w
  | fail (hwaiting : w.Waiting ev.objname) (htype : ev.objtype = TBDB_TBEVENT_TBFAILED) : Does w ev { w with
      failures := w.failures ++ [ev.objname]
      remain := update w.remain ev.objname none }
  | finish {states : List Str} (hstates : w.remain ev.objname = some states)
      (htype : ev.objtype ≠ TBDB_TBEVENT_TBFAILED) (hnext : states = [] ∨ states = [ev.eventtype]) :
    Does w ev { w with
      done := w.done ++ [ev.objname]
      remain := update w.remain ev.objname none }
  | advance {states : List Str} (hstates : w.remain ev.objname = some (ev.eventtype :: states))
      (htype : ev.objtype ≠ TBDB_TBEVENT_TBFAILED) :
    Does w ev { w with remain := update w.remain ev.objname (some states) }

theorem doState_of_none (h : w.remain ev.objname = none) : w.doState ev = w := by
  unfold doState
  rw [h]

theorem doEvent_does (w : Wait) (ev : NodeEvent) : Does w ev (w.doEvent ev) := by
  unfold doEvent doFailure
  split
  · rename_i hfail
    -- the node is off before its states are looked at
    rw [doState_of_none (update_self _ _ _)]
    exact .fail hfail.1 hfail.2
  · rename_i hnot
    unfold doState
    cases hstates : w.remain ev.objname with
    | none => exact .nothing
    | some states =>
      have htype : ev.objtype ≠ TBDB_TBEVENT_TBFAILED := fun htype => hnot ⟨by rw [hstates]; rfl, htype⟩
      dsimp only
      split
      · rename_i hnext
        cases states with
        | nil => exact .finish hstates htype (Or.inl rfl)
        | cons state states =>
          obtain rfl : state = ev.eventtype := hnext
          split
          · rename_i htail
            have htail' : states = [] := htail
            exact .finish hstates htype (Or.inr (by rw [htail']))
          · exact .advance hstates htype
      · exact .nothing

theorem cancelWait_eq (w : Wait) (node : Str) : (w.cancelWait node = w ∧ ¬w.Waiting argumentCount) ∨
    (w.Waiting argumentCount ∧ w.cancelWait node =
      { w with remain := update w.remain argumentCount none, nodecount := w.nodecount - 1 }) := by
  unfold cancelWait Waiting
  cases w.remain argumentCount with
  | none => exact Or.inl ⟨rfl, by simp⟩
  | some states => exact Or.inr ⟨rfl, rfl⟩

end Wait

/-! ## Section 3: Runs -/

/-- The package and what has happened since the wait began. -/
structure WaitHistory where
  wait : Wait
  seen : Str → List Str
  /-- The nodes that were cancelled while they were waited for -/
  cancelled : List Str

/-- What can happen. After a timeout `waitForState` returns and leaves all as it is. -/
inductive WaitOp where
  | event (ev : NodeEvent)
  | cancelWait (node : Str)
  | timeout

namespace WaitHistory

/-- What has been seen after one more event. A failure shows no state. -/
def sees (seen : Str → List Str) (ev : NodeEvent) : Str → List Str :=
  if ev.objtype = TBDB_TBEVENT_TBFAILED then seen
  else update seen ev.objname (seen ev.objname ++ [ev.eventtype])

def step (h : WaitHistory) : WaitOp → Option WaitHistory
  | .event ev => some { h with wait := h.wait.doEvent ev, seen := sees h.seen ev }
  | .cancelWait node =>
    some { h with
      wait := h.wait.cancelWait node
      cancelled := if (h.wait.remain node).isSome then node :: h.cancelled else h.cancelled }
  | .timeout => some h

def start (states nodes : List Str) : WaitHistory where
  wait := .initStateWait states nodes
  seen _ := []
  cancelled := []

/-- What is expected in every state: a node that is not cancelled is in one place,
    a cancelled one is not waited for, a completed one was seen in the states in
    their order, and the loop goes on as long as a node is waited for. -/
structure Settled (states nodes : List Str) (h : WaitHistory) : Prop where
  once : ∀ n ∈ nodes, n ∉ h.cancelled → (n ∈ h.wait.done ∧ n ∉ h.wait.failures ∧ ¬h.wait.Waiting n) ∨
      (n ∉ h.wait.done ∧ n ∈ h.wait.failures ∧ ¬h.wait.Waiting n) ∨
      (n ∉ h.wait.done ∧ n ∉ h.wait.failures ∧ h.wait.Waiting n)
  withdrawn : ∀ n ∈ h.cancelled, ¬h.wait.Waiting n
  wanted : ∀ n ∈ h.wait.done, states.Sublist (h.seen n)
  loop : h.wait.total < h.wait.nodecount ↔ ∃ n, h.wait.Waiting n
  count : h.wait.total = (h.wait.done ++ h.wait.failures).toFinset.card

/-- A cancellation hits the node it is for, or none. -/
def CancelOk (h : WaitHistory) : WaitOp → Prop
  | .cancelWait node => node = Wait.argumentCount ∨ ¬h.wait.Waiting node ∧ ¬h.wait.Waiting Wait.argumentCount
  | .event _ | .timeout => True

/-! ## Section 4: The invariant -/

def waitingCount (nodes : List Str) (remain : Str → Option (List Str)) : Nat :=
  (nodes.toFinset.filter fun n => (remain n).isSome).card

section

variable {nodes states : List Str} {remain : Str → Option (List Str)} {n : Str} {h : WaitHistory}

theorem isSome_update_none {m : Str} : (update remain n none m).isSome ↔ m ≠ n ∧ (remain m).isSome := by
  by_cases hm : m = n
  · rw [hm, update_self]
    simp
  · rw [update_of_ne hm]
    simp [hm]

theorem isSome_update_some {m : Str} {l : List Str} (hwaiting : (remain n).isSome) :
    (update remain n (some l) m).isSome ↔ (remain m).isSome := by
  by_cases hm : m = n
  · rw [hm, update_self]
    simp [hwaiting]
  · rw [update_of_ne hm]

/-- One node comes off. -/
theorem waitingCount_none (hn : n ∈ nodes) (hwaiting : (remain n).isSome) :
    waitingCount nodes (update remain n none) + 1 = waitingCount nodes remain := by
  have hmem : n ∈ nodes.toFinset.filter fun n => (remain n).isSome :=
    Finset.mem_filter.mpr ⟨List.mem_toFinset.mpr hn, hwaiting⟩
  have herase : (nodes.toFinset.filter fun m => (update remain n none m).isSome) =
      (nodes.toFinset.filter fun n => (remain n).isSome).erase n := by
    ext m
    rw [Finset.mem_filter, isSome_update_none, Finset.mem_erase, Finset.mem_filter]
    tauto
  unfold waitingCount
  rw [herase, Finset.card_erase_add_one hmem]

theorem waitingCount_some (hwaiting : (remain n).isSome) (states : List Str) :
    waitingCount nodes (update remain n (some states)) = waitingCount nodes remain := by
  unfold waitingCount
  congr 1
  ext m
  rw [Finset.mem_filter, Finset.mem_filter, isSome_update_some hwaiting]

theorem waitingCount_pos (hmem : ∀ n, (remain n).isSome → n ∈ nodes) :
    0 < waitingCount nodes remain ↔ ∃ n, (remain n).isSome := by
  unfold waitingCount
  rw [Finset.card_pos]
  constructor
  · intro ⟨n, hn⟩
    exact ⟨n, (Finset.mem_filter.mp hn).2⟩
  · intro ⟨n, hn⟩
    exact ⟨n, Finset.mem_filter.mpr ⟨List.mem_toFinset.mpr (hmem n hn), hn⟩⟩

/-- What holds in every state, whatever is cancelled. The count of nodes is too high
    by the number of nodes that were given twice. -/
structure WaitInv (states nodes : List Str) (h : WaitHistory) : Prop where
  nodup : (h.wait.done ++ h.wait.failures).Nodup
  fresh : ∀ n, h.wait.Waiting n → n ∉ h.wait.done ++ h.wait.failures
  mem : ∀ n, h.wait.Waiting n → n ∈ nodes
  balance : h.wait.nodecount - h.wait.total =
    (nodes.length - nodes.toFinset.card : Int) + waitingCount nodes h.wait.remain
  progress : ∀ n l, h.wait.remain n = some l → ∃ pre, states = pre ++ l ∧ pre.Sublist (h.seen n)
  wanted : ∀ n ∈ h.wait.done, states.Sublist (h.seen n)

theorem waitInv_start (states nodes : List Str) : WaitInv states nodes (start states nodes) where
  nodup := List.nodup_nil
  fresh _ _ := List.not_mem_nil
  mem n hn := by
    by_contra hnot
    simp [start, Wait.initStateWait, Wait.Waiting, hnot] at hn
  balance := by
    have hall : (nodes.toFinset.filter fun n => ((start states nodes).wait.remain n).isSome) = nodes.toFinset := by
      refine Finset.filter_true_of_mem fun n hn => ?_
      simp [start, Wait.initStateWait, List.mem_toFinset.mp hn]
    unfold waitingCount
    rw [hall]
    simp [start, Wait.initStateWait, Wait.total]
  progress n l hl := by
    refine ⟨[], ?_, List.Sublist.refl _⟩
    have hl : (if n ∈ nodes then some states else none) = some l := hl
    split at hl
    · exact Option.some.inj hl
    · cases hl
  wanted n hn := absurd hn List.not_mem_nil

theorem sees_sublist (seen : Str → List Str) (ev : NodeEvent) (n : Str) : (seen n).Sublist (sees seen ev n) := by
  unfold sees
  split
  · exact List.Sublist.refl _
  · by_cases hn : n = ev.objname
    · rw [hn, update_self]
      exact List.sublist_append_left _ _
    · rw [update_of_ne hn]

theorem WaitInv.off (hinv : WaitInv states nodes h) {w : Wait} {seen : Str → List Str}
    (hwaiting : h.wait.Waiting n) (hremain : w.remain = update h.wait.remain n none)
    (hnodecount : w.nodecount = h.wait.nodecount)
    (hperm : (w.done ++ w.failures).Perm (n :: (h.wait.done ++ h.wait.failures)))
    (hseen : ∀ m, (h.seen m).Sublist (seen m)) (hdone : ∀ m ∈ w.done, m ∈ h.wait.done ∨ states.Sublist (seen m)) :
    WaitInv states nodes { h with wait := w, seen := seen } where
  nodup := by
    rw [hperm.nodup_iff, List.nodup_cons]
    exact ⟨hinv.fresh n hwaiting, hinv.nodup⟩
  fresh m hm := by
    have hm : (w.remain m).isSome := hm
    rw [hremain, isSome_update_none] at hm
    dsimp only
    rw [hperm.mem_iff, List.mem_cons, not_or]
    exact ⟨hm.1, hinv.fresh m hm.2⟩
  mem m hm := by
    have hm : (w.remain m).isSome := hm
    rw [hremain, isSome_update_none] at hm
    exact hinv.mem m hm.2
  balance := by
    -- one node less is waited for, and the lists have one more
    have hcount := waitingCount_none (hinv.mem n hwaiting) hwaiting
    have hlen := hperm.length_eq
    have hbalance := hinv.balance
    simp only [List.length_append, List.length_cons] at hlen
    unfold Wait.total at hbalance ⊢
    dsimp only
    rw [hremain, hnodecount]
    omega
  progress m l hl := by
    have hl : w.remain m = some l := hl
    rw [hremain] at hl
    by_cases hne : m = n
    · rw [hne, update_self] at hl
      cases hl
    · rw [update_of_ne hne] at hl
      obtain ⟨pre, heq, hsub⟩ := hinv.progress m l hl
      exact ⟨pre, heq, hsub.trans (hseen m)⟩
  wanted m hm := by
    rcases hdone m hm with hm | hm
    · exact (hinv.wanted m hm).trans (hseen m)
    · exact hm

theorem WaitInv.event (hinv : WaitInv states nodes h) (ev : NodeEvent) :
    WaitInv states nodes { h with wait := h.wait.doEvent ev, seen := sees h.seen ev } := by
  have hseen := sees_sublist h.seen ev
  have hlast : ev.objtype ≠ TBDB_TBEVENT_TBFAILED →
      sees h.seen ev ev.objname = h.seen ev.objname ++ [ev.eventtype] := by
    intro htype
    unfold sees
    rw [if_neg htype, update_self]
  generalize hw : h.wait.doEvent ev = w
  have hdoes := hw ▸ Wait.doEvent_does h.wait ev
  cases hdoes with
  | nothing =>
    -- only what the nodes were seen in may have grown
    refine ⟨hinv.nodup, hinv.fresh, hinv.mem, hinv.balance, fun m l hl => ?_, fun m hm => ?_⟩
    · obtain ⟨pre, heq, hsub⟩ := hinv.progress m l hl
      exact ⟨pre, heq, hsub.trans (hseen m)⟩
    · exact (hinv.wanted m hm).trans (hseen m)
  | fail hwaiting htype =>
    refine hinv.off hwaiting rfl rfl ?_ hseen fun m hm => Or.inl hm
    dsimp only
    rw [← List.append_assoc]
    exact List.perm_append_singleton _ _
  | @finish l hstates htype hnext =>
    have hwaiting : h.wait.Waiting ev.objname := by
      unfold Wait.Waiting
      rw [hstates]
      rfl
    refine hinv.off hwaiting rfl rfl ?_ hseen fun m hm => ?_
    · dsimp only
      rw [List.append_assoc]
      exact List.perm_middle
    · rcases List.mem_append.mp hm with hm | hm
      · exact Or.inl hm
      · -- the node was seen in all states before the one of this event
        right
        rw [List.mem_singleton.mp hm, hlast htype]
        obtain ⟨pre, heq, hsub⟩ := hinv.progress _ _ hstates
        rw [heq]
        refine hsub.append ?_
        rcases hnext with rfl | rfl
        · exact List.nil_sublist _
        · exact List.Sublist.refl _
  | @advance l hstates htype =>
    have hwaiting : (h.wait.remain ev.objname).isSome := by
      rw [hstates]
      rfl
    have hsame : ∀ m, (update h.wait.remain ev.objname (some l) m).isSome ↔
        (h.wait.remain m).isSome := fun m => isSome_update_some hwaiting
    refine ⟨hinv.nodup, fun m hm => hinv.fresh m ((hsame m).mp hm), fun m hm => hinv.mem m ((hsame m).mp hm), ?_,
      fun m l' hl => ?_, fun m hm => (hinv.wanted m hm).trans (hseen m)⟩
    · have hbalance := hinv.balance
      dsimp only
      rw [waitingCount_some hwaiting]
      exact hbalance
    · have hl : update h.wait.remain ev.objname (some l) m = some l' := hl
      by_cases hm : m = ev.objname
      · -- the state that has come off was seen last
        rw [hm, update_self, Option.some.injEq] at hl
        obtain ⟨pre, heq, hsub⟩ := hinv.progress _ _ hstates
        refine ⟨pre ++ [ev.eventtype], by rw [heq, ← hl]; simp, ?_⟩
        dsimp only
        rw [hm, hlast htype]
        exact hsub.append (List.Sublist.refl _)
      · rw [update_of_ne hm] at hl
        obtain ⟨pre, heq, hsub⟩ := hinv.progress m l' hl
        exact ⟨pre, heq, hsub.trans (hseen m)⟩

theorem WaitInv.cancelWait (hinv : WaitInv states nodes h) (node : Str) (cancelled : List Str) :
    WaitInv states nodes { h with wait := h.wait.cancelWait node, cancelled := cancelled } := by
  rcases h.wait.cancelWait_eq node with ⟨heq, -⟩ | ⟨hwaiting, heq⟩
  · rw [heq]
    exact ⟨hinv.nodup, hinv.fresh, hinv.mem, hinv.balance, hinv.progress, hinv.wanted⟩
  · rw [heq]
    have hless : ∀ m l, update h.wait.remain Wait.argumentCount none m = some l → h.wait.remain m = some l := by
      intro m l hl
      by_cases hm : m = Wait.argumentCount
      · rw [hm, update_self] at hl
        cases hl
      · rwa [update_of_ne hm] at hl
    have hstill : ∀ m, (update h.wait.remain Wait.argumentCount none m).isSome → h.wait.Waiting m :=
      fun m hm => (isSome_update_none.mp hm).2
    refine ⟨hinv.nodup, fun m hm => hinv.fresh m (hstill m hm), fun m hm => hinv.mem m (hstill m hm), ?_,
      fun m l hl => hinv.progress m l (hless m l hl), hinv.wanted⟩
    have hcount := waitingCount_none (hinv.mem _ hwaiting) hwaiting
    have hbalance := hinv.balance
    unfold Wait.total at hbalance ⊢
    dsimp only
    omega

theorem WaitInv.step (hinv : WaitInv states nodes h) {op : WaitOp} {h' : WaitHistory} (hstep : h.step op = some h') :
    WaitInv states nodes h' := by
  cases op with
  | event ev => exact Option.some.inj hstep ▸ hinv.event ev
  | cancelWait node => exact Option.some.inj hstep ▸ hinv.cancelWait node _
  | timeout => exact Option.some.inj hstep ▸ hinv

/-! ## Section 5: Cancellations and repeated nodes -/

/-- No node is lost, and no cancelled node is waited for. -/
def Placed (nodes : List Str) (h : WaitHistory) : Prop :=
  (∀ n ∈ nodes, n ∉ h.cancelled → n ∈ h.wait.done ∨ n ∈ h.wait.failures ∨ h.wait.Waiting n) ∧
    ∀ n ∈ h.cancelled, ¬h.wait.Waiting n

/-- An event moves a node, and loses none. -/
theorem Placed.event (hplaced : Placed nodes h) (ev : NodeEvent) :
    Placed nodes { h with wait := h.wait.doEvent ev, seen := sees h.seen ev } := by
  have hoff : ∀ w : Wait, w.remain = update h.wait.remain ev.objname none →
      (∀ m, m ∈ h.wait.done → m ∈ w.done) → (∀ m, m ∈ h.wait.failures → m ∈ w.failures) →
      ev.objname ∈ w.done ∨ ev.objname ∈ w.failures →
      Placed nodes { h with wait := w, seen := sees h.seen ev } := by
    intro w hremain hdone hfailures hplace
    refine ⟨fun n hn hcancelled => ?_, fun n hn hwaiting => ?_⟩
    · by_cases hne : n = ev.objname
      · rw [hne]
        exact hplace.imp_right Or.inl
      · rcases hplaced.1 n hn hcancelled with hin | hin | hin
        · exact Or.inl (hdone n hin)
        · exact Or.inr (Or.inl (hfailures n hin))
        · refine Or.inr (Or.inr ?_)
          show (w.remain n).isSome
          rw [hremain]
          exact isSome_update_none.mpr ⟨hne, hin⟩
    · have hwaiting : (w.remain n).isSome := hwaiting
      rw [hremain, isSome_update_none] at hwaiting
      exact hplaced.2 n hn hwaiting.2
  generalize hw : h.wait.doEvent ev = w
  have hdoes := hw ▸ Wait.doEvent_does h.wait ev
  cases hdoes with
  | nothing => exact hplaced
  | fail =>
    exact hoff _ rfl (fun _ hm => hm) (fun _ hm => List.mem_append_left _ hm) (Or.inr (by simp))
  | finish =>
    exact hoff _ rfl (fun _ hm => List.mem_append_left _ hm) (fun _ hm => hm) (Or.inl (by simp))
  | @advance l hstates htype =>
    have hsame : ∀ m, (update h.wait.remain ev.objname (some l) m).isSome ↔ h.wait.Waiting m :=
      fun m => isSome_update_some (by rw [hstates]; rfl)
    refine ⟨fun n hn hcancelled => ?_, fun n hn hwaiting => hplaced.2 n hn ((hsame n).mp hwaiting)⟩
    exact (hplaced.1 n hn hcancelled).imp_right (Or.imp_right (hsame n).mpr)

/-- A cancellation is right exactly if it hits the node it is for, or none. -/
theorem placed_cancelWait_iff (hinv : WaitInv states nodes h) (hplaced : Placed nodes h) {node : Str}
    {h' : WaitHistory} (hstep : h.step (.cancelWait node) = some h') :
    Placed nodes h' ↔ CancelOk h (.cancelWait node) := by
  obtain rfl := Option.some.inj hstep
  unfold CancelOk
  constructor
  · intro ⟨hcover, hwithdrawn⟩
    by_cases hnode : node = Wait.argumentCount
    · exact Or.inl hnode
    right
    have hother : (h.wait.cancelWait node).remain node = h.wait.remain node := by
      rcases h.wait.cancelWait_eq node with ⟨heq, -⟩ | ⟨-, heq⟩
      · rw [heq]
      · rw [heq]
        exact update_of_ne hnode _ _
    constructor
    · -- a node that is still waited for would be one of the cancelled
      intro hwaiting
      have hmem : node ∈ (if (h.wait.remain node).isSome then node :: h.cancelled else h.cancelled) := by
        rw [if_pos (show (h.wait.remain node).isSome from hwaiting)]
        exact List.mem_cons_self
      refine hwithdrawn node hmem ?_
      show ((h.wait.cancelWait node).remain node).isSome
      rw [hother]
      exact hwaiting
    · -- the node that is hit would be in no place
      intro hwaiting
      obtain ⟨-, heq⟩ := (h.wait.cancelWait_eq node).resolve_left fun hnot => hnot.2 hwaiting
      have hnot : Wait.argumentCount ∉ (if (h.wait.remain node).isSome then node :: h.cancelled else h.cancelled) := by
        have hnotcancelled : Wait.argumentCount ∉ h.cancelled := fun hmem => hplaced.2 _ hmem hwaiting
        split
        · rw [List.mem_cons, not_or]
          exact ⟨Ne.symm hnode, hnotcancelled⟩
        · exact hnotcancelled
      have hfresh := hinv.fresh _ hwaiting
      rw [List.mem_append, not_or] at hfresh
      have hplace := hcover _ (hinv.mem _ hwaiting) hnot
      dsimp only at hplace
      rw [heq] at hplace
      rcases hplace with hin | hin | hin
      · exact hfresh.1 hin
      · exact hfresh.2 hin
      · have hin : (update h.wait.remain Wait.argumentCount none Wait.argumentCount).isSome := hin
        exact (isSome_update_none.mp hin).1 rfl
  · intro hok
    rcases h.wait.cancelWait_eq node with ⟨heq, hnone⟩ | ⟨hwaiting, heq⟩
    · -- nothing is hit, and nothing was to be
      have hnot : ¬(h.wait.remain node).isSome := by
        rcases hok with rfl | hok
        · exact hnone
        · exact hok.1
      rw [heq, if_neg hnot]
      exact hplaced
    · obtain rfl : node = Wait.argumentCount := hok.resolve_right fun hnot => hnot.2 hwaiting
      rw [heq, if_pos (show (h.wait.remain Wait.argumentCount).isSome from hwaiting)]
      refine ⟨fun n hn hcancelled => ?_, fun n hn hwaiting' => ?_⟩
      · dsimp only at hcancelled
        rw [List.mem_cons, not_or] at hcancelled
        refine (hplaced.1 n hn hcancelled.2).imp_right (Or.imp_right fun hin => ?_)
        exact isSome_update_none.mpr ⟨hcancelled.1, hin⟩
      · obtain ⟨hne, hstill⟩ := isSome_update_none.mp hwaiting'
        exact hplaced.2 n ((List.mem_cons.mp hn).resolve_left hne) hstill

theorem nodup_iff_card : nodes.Nodup ↔ nodes.toFinset.card = nodes.length := by
  rw [List.card_toFinset]
  constructor
  · intro hnodup
    rw [List.dedup_eq_self.mpr hnodup]
  · intro hlen
    exact List.dedup_eq_self.mp ((List.dedup_sublist nodes).eq_of_length hlen)

/-- In a state of the invariant the loop goes on without need exactly if no node is
    left and one was given twice. -/
theorem WaitInv.settled_iff (hinv : WaitInv states nodes h) : Settled states nodes h ↔
    Placed nodes h ∧ (nodes.Nodup ∨ ∃ n, h.wait.Waiting n) := by
  have hpos := waitingCount_pos hinv.mem
  have hbalance := hinv.balance
  have hle := List.toFinset_card_le nodes
  have hnodup := List.nodup_append.mp hinv.nodup
  constructor
  · intro hs
    refine ⟨⟨fun n hn hcancelled => ?_, hs.withdrawn⟩, ?_⟩
    · rcases hs.once n hn hcancelled with hin | hin | hin
      · exact Or.inl hin.1
      · exact Or.inr (Or.inl hin.2.1)
      · exact Or.inr (Or.inr hin.2.2)
    · -- the count of nodes is higher than what can come off
      by_contra hnot
      rw [not_or] at hnot
      have hloop := mt hs.loop.mp hnot.2
      have hzero : ¬0 < waitingCount nodes h.wait.remain := mt hpos.mp hnot.2
      have hne : nodes.toFinset.card ≠ nodes.length := mt nodup_iff_card.mpr hnot.1
      omega
  · intro ⟨hplaced, hor⟩
    refine ⟨fun n hn hcancelled => ?_, hplaced.2, hinv.wanted, ?_, ?_⟩
    · by_cases hwaiting : h.wait.Waiting n
      · have hfresh := hinv.fresh n hwaiting
        rw [List.mem_append, not_or] at hfresh
        exact Or.inr (Or.inr ⟨hfresh.1, hfresh.2, hwaiting⟩)
      · rcases hplaced.1 n hn hcancelled with hin | hin | hin
        · exact Or.inl ⟨hin, fun hin' => hnodup.2.2 n hin n hin' rfl, hwaiting⟩
        · exact Or.inr (Or.inl ⟨fun hin' => hnodup.2.2 n hin' n hin rfl, hin, hwaiting⟩)
        · exact absurd hin hwaiting
    · rw [show (∃ n, h.wait.Waiting n) ↔ _ from hpos.symm]
      rcases hor with hor | hor
      · have hcard := nodup_iff_card.mp hor
        omega
      · have hcount := hpos.mpr hor
        omega
    · rw [List.toFinset_card_of_nodup hinv.nodup, List.length_append]
      rfl

end

/-- A wait goes as expected in every state, whatever happens in which order, exactly if every cancellation
    hits the node it is for or none, and no node is given twice or the wait never gets to its end. -/
theorem stateWait_settled_iff (states nodes : List Str) (ops : List WaitOp) :
    (∀ pre h, pre <+: ops → run step (start states nodes) pre = some h → Settled states nodes h) ↔
      Meets step CancelOk (start states nodes) ops ∧ (nodes.Nodup ∨
          ∀ pre h, pre <+: ops → run step (start states nodes) pre = some h → ∃ n, h.wait.Waiting n) := by
  have hstart := waitInv_start states nodes
  have hinv : ∀ pre h, run step (start states nodes) pre = some h → WaitInv states nodes h := by
    intro pre h hrun
    exact run_inv (WaitInv states nodes) (fun _ _ _ hinv _ hstep => hinv.step hstep) hstart
      (meets_of_forall (p := fun _ => True) (fun _ _ => trivial) _) hrun
  have hplaced : (∀ pre h, pre <+: ops → run step (start states nodes) pre = some h → Placed nodes h) ↔
      Meets step CancelOk (start states nodes) ops := by
    refine prefix_iff_meets (WaitInv states nodes) (Placed nodes) (fun _ _ _ hinv hstep => hinv.step hstep) ?_ ?_
      hstart ?_ ops
    · intro h op h' hinv hp hstep
      cases op with
      | event ev => exact iff_of_true (Option.some.inj hstep ▸ hp.event ev) trivial
      | cancelWait node => exact placed_cancelWait_iff hinv hp hstep
      | timeout => exact iff_of_true (Option.some.inj hstep ▸ hp) trivial
    · intro h op _ hnone
      cases op <;> cases hnone
    · refine ⟨fun n hn _ => Or.inr (Or.inr ?_), fun n hn => absurd hn List.not_mem_nil⟩
      simp [start, Wait.initStateWait, Wait.Waiting, hn]
  rw [← hplaced]
  constructor
  · intro hall
    refine ⟨fun pre h hpre hrun => ((hinv pre h hrun).settled_iff.mp (hall pre h hpre hrun)).1, ?_⟩
    by_cases hnodup : nodes.Nodup
    · exact Or.inl hnodup
    · exact Or.inr fun pre h hpre hrun =>
        ((hinv pre h hrun).settled_iff.mp (hall pre h hpre hrun)).2.resolve_left hnodup
  · intro ⟨hall, hor⟩ pre h hpre hrun
    refine (hinv pre h hrun).settled_iff.mpr ⟨hall pre h hpre hrun, ?_⟩
    exact hor.imp_right fun hwaits => hwaits pre h hpre hrun

/-- One node, given twice, is up: the loop goes on. -/
theorem repeated_node_waits : ¬∀ (states nodes : List Str) (ops : List WaitOp) (h : WaitHistory),
    run step (start states nodes) ops = some h → Settled states nodes h := by
  intro hall
  have hinv := (waitInv_start ["ISUP".toList] ["pc1".toList, "pc1".toList]).event
    ⟨"TBNODESTATE".toList, "pc1".toList, "ISUP".toList⟩
  have hsettled := hall ["ISUP".toList] ["pc1".toList, "pc1".toList]
    [.event ⟨"TBNODESTATE".toList, "pc1".toList, "ISUP".toList⟩] _ rfl
  obtain ⟨n, hn⟩ := hsettled.loop.mp (by decide)
  have hpc : n = "pc1".toList := by simpa using hinv.mem n hn
  rw [hpc] at hn
  exact absurd hn (by unfold Wait.Waiting; decide)

end WaitHistory

end Emulab.Stated
