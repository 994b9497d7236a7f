import Emulab.Stated.Tables
import Emulab.Stated.TimeoutQueue

/-! # The state daemon

  `stated` keeps the state and the mode of every node, follows the events that
  nodes and the portal send, runs triggers, and acts when a state lasts too
  long. What it reads from the world while it handles one event is given by a
  `World`. `none` means that the daemon exits: it does so on every warning,
  and an undefined state, mode or tag that is used is one.
-/

namespace Emulab.Stated

open Function

/-! ## State -/

/-- A node, `$nodes{$node}`. -/
structure Node where
  state : Option Str
  mode : Option Str
  timestamp : Option Int
  timedout : Nat := 0
  noretry : Bool := false
  tag : Str := []

/-- A change of the state of a node, for the record. `valid` is what
    `IsValidTransition` says of it. -/
structure Write where
  node : Str
  byStateEvent : Bool
  mode : Str
  old : Str
  new : Str
  valid : Bool

structure Daemon where
  soft : Bool
  dbtag : Str
  timeouts : List TimeoutRow
  valid : List ValidRow
  modeTrans : List ModeTransRow
  triggers : Str → Option (List Str)
  nodes : Str → Option Node
  queue : TimeoutQueue Str
  timeoutTag : Str → Option Str
  /-- All changes of states so far. The source keeps none of it. -/
  writes : List Write

/-! ## The world -/

/-- A row of the table of nodes in the database. -/
structure Row where
  node : Str
  state : Option Str
  timestamp : Option Int
  mode : Option Str
  tag : Option Str

/-- What `reload` reads. The node is the key of its table. -/
structure Snapshot where
  timeouts : List TimeoutRow
  valid : List ValidRow
  modeTrans : List ModeTransRow
  triggers : List TriggerRow
  rows : List Row
  nodup : (rows.map Row.node).Nodup

/-- What the daemon finds while it handles one event. The trigger that is run,
    or the check after the triggers, is given by its place. -/
structure World where
  /-- `time()` -/
  now : Int
  /-- Whether `Node->LookupSync` finds the node of the event. -/
  lookup : Bool
  /-- The same, called from a trigger. -/
  lookupSync : Nat → Bool
  nextOpMode : Nat → Option Str
  /-- What `TBBootWhat` returns: the OS and its mode. -/
  bootWhat : Nat → Option Nat × Option Str
  /-- `checkDBRedirect` -/
  redirect : Bool
  db : Snapshot

/-- `$maxpasttimeout`: one week -/
def maxpasttimeout : Int := -(7 * 24 * 60 * 60)

/-- `$TBNOTIMEOUT` -/
def TBNOTIMEOUT : Int := 0

/-! ## Timeouts -/

/-- `remTimeout`, also what `setTimeout` begins with -/
def remTimeout (node : Str) (d : Daemon) : Daemon :=
  if (d.queue.qfind node).isSome then
    { d with queue := d.queue.qdelete node, timeoutTag := update d.timeoutTag node none }
  else d

/-- `setTimeout`; `now` is `time()`. -/
def setTimeout (now : Int) (mode state : Str) (node : Str) (stime : Int) (d : Daemon) : Daemon :=
  let d := remTimeout node d
  match (timeouts d.timeouts mode state).bind TimeoutRow.timeout with
  | none => d
  | some deadline =>
    if deadline ≠ TBNOTIMEOUT ∧ maxpasttimeout < deadline + stime - now then
      { d with
        queue := d.queue.qinsert node (deadline + stime)
        timeoutTag := update d.timeoutTag node (some (colon mode state)) }
    else d

/-! ## Changes of states and modes -/

/-- The assignments to `$nodes{$node}` -/
def enter (now : Int) (byStateEvent : Bool) (node : Str) (info : Node) (mode oldstate newmode newstate : Str)
    (d : Daemon) : Daemon :=
  { d with
    nodes := update d.nodes node
      (some { info with state := some newstate, mode := some newmode, timestamp := some now })
    writes := d.writes ++
      [⟨node, byStateEvent, mode, oldstate, newstate, isValidTransition d.valid mode oldstate newstate⟩] }

/-- `opModeTransition`. `$force` decides only what is reported: the mode is set in any case. -/
def opModeTransition (now : Int) (lookup : Bool) (node newmode : Str) (d : Daemon) : Option Daemon := do
  let info ← d.nodes node
  let mode ← info.mode
  let oldstate ← info.state
  let trans ← transState d.modeTrans mode oldstate newmode
  let nextstate := match trans with
    | some s => if truthy s then s else oldstate
    | none => oldstate
  -- a method of an undefined node object ends the daemon
  if lookup then
    some (setTimeout now newmode nextstate node now (enter now false node info mode oldstate newmode nextstate d))
  else none

/-- "Machines in the secure boot path are not allowed to jump willy-nilly into unknown states." -/
def secureState (valid : List ValidRow) (mode oldstate newstate : Str) : Str :=
  if truthy oldstate ∧ truthy mode ∧ ¬isValidTransition valid mode oldstate newstate ∧
      (mode = SECUREBOOT ∨ mode = SECURELOAD) then SECVIOLATION
  else newstate

/-- "Nodes that are in the SECVIOLATION state are not allowed to leave!" -/
def heldState (soft : Bool) (oldstate newstate : Str) : Str :=
  if oldstate = SECVIOLATION ∧ newstate ≠ SECVIOLATION then
    if soft ∧ (newstate = SHUTDOWN ∨ newstate = POWEROFF ∨ newstate = GPXEBOOTING) then newstate
    else SECVIOLATION
  else newstate

/-! ## Commands -/

/-- The loop of `handleCommand` that cuts out the nodes that should not be rebooted now; `k` iterations are
    left. A node that is cut out moves the others up, so that the index gets past the end. -/
def checkRebooting (d : Daemon) : Nat → Nat → List Str → Option (List Str)
  | 0, _, nodes => some nodes
  | k + 1, n, nodes => do
    let node ← nodes[n]?
    let info ← d.nodes node
    let state ← info.state
    checkRebooting d k (n + 1)
      (if state ≠ ISUP ∧ state ≠ TBFAILED ∧ ¬info.noretry then nodes.eraseIdx n else nodes)

def rebootable (d : Daemon) (force : Bool) (nodes : List Str) : Option (List Str) :=
  if force then some nodes else checkRebooting d nodes.length 0 nodes

/-- `handleCommand`. Rebooting and power control themselves are up to other programs. -/
def handleCommand (now : Int) (params command : Str) (retry : Nat) (force : Bool) (d : Daemon) : Option Daemon :=
  let nodes := split (· = ',') params
  if command = REBOOT ∧ 4 ≤ retry then some d
  else if command = REBOOT then do
    let nodes ← rebootable d force nodes
    some (nodes.foldl (fun d node => setTimeout now TBCOMMAND command node now d) d)
  else if d.soft ∧ command = POWEROFF ∧ nodes ≠ [] then do
    -- a node in SECVIOLATION is not powered off; the look at its state must succeed
    let node ← nodes.head?
    let info ← d.nodes node
    let _ ← info.state
    some d
  else some d

/-! ## Triggers -/

/-- Whether the BOOTING trigger forces the mode RELOAD without a transition. -/
def forcesReload (bootWhat : Option Nat × Option Str) (mode oldstate : Str) : Prop :=
  ∃ osid, bootWhat = (some osid, some RELOAD) ∧ osid ≠ 0 ∧ mode ≠ RELOAD ∧ mode ≠ PXEKERNEL ∧ oldstate ≠ ISUP

/-- The BOOTING trigger; the result has the local `$mode`. -/
def bootingTrigger (w : World) (i : Nat) (node oldstate : Str) (d : Daemon) (mode : Str) : Option (Daemon × Str) :=
  match w.bootWhat i with
  | (some (_ + 1), some bootopmode) =>
    if bootopmode = mode then some (d, mode)
    else if mode = PXEKERNEL then do
      let d ← opModeTransition w.now (w.lookupSync i) node bootopmode d
      some (d, bootopmode)
    else if oldstate = ISUP then
      match w.nextOpMode i with
      | some nextmode =>
        if truthy nextmode then do
          let d ← opModeTransition w.now (w.lookupSync i) node nextmode d
          some (d, nextmode)
        else some (d, mode)
      | none => some (d, mode)
    else if bootopmode = RELOAD then do
      let info ← d.nodes node
      some ({ d with nodes := update d.nodes node (some { info with mode := some bootopmode }) }, mode)
    else some (d, mode)
  | _ => some (d, mode)

/-- The mode that the SECUREBOOT trigger goes to. -/
def secureMode (nextOpMode : Option Str) (mode oldstate : Str) : Str :=
  let nextmode := match nextOpMode with
    | some m => if truthy m then m else mode
    | none => mode
  if nextmode ≠ SECURELOAD ∨ (oldstate ≠ SHUTDOWN ∧ oldstate ≠ REBOOTING) then SECUREBOOT else nextmode

/-- One trigger, the `i`-th of the list. -/
def runTrigger (w : World) (i : Nat) (node oldstate : Str) (trig : Str) (d : Daemon) (mode : Str) :
    Option (Daemon × Str) :=
  match Trigger.ofText trig with
  | .pxeBoot =>
    if mode ≠ PXEKERNEL then do
      let d ← opModeTransition w.now (w.lookupSync i) node PXEKERNEL d
      some (d, PXEKERNEL)
    else some (d, mode)
  | .secureBoot =>
    let nextmode := secureMode (w.nextOpMode i) mode oldstate
    if mode ≠ nextmode then do
      let d ← opModeTransition w.now (w.lookupSync i) node nextmode d
      some (d, nextmode)
    else some (d, mode)
  | .booting => bootingTrigger w i node oldstate d mode
  | .reset => do
    let info ← d.nodes node
    some ({ d with nodes := update d.nodes node (some { info with noretry := false, timedout := 0 }) }, mode)
  | .command => do
    let d ← handleCommand w.now node trig 0 false d
    some (d, mode)
  -- other programs, mail and events to be sent
  | .script | .checkGenIsUp | .checkPortReg | .pxeReset | .reloadDone | .isUp | .emailNotify
  | .reloadOldMfs | .unknown => some (d, mode)

def runTriggers (w : World) (node oldstate : Str) : Nat → List Str → Daemon → Str → Option (Daemon × Str)
  | _, [], d, mode => some (d, mode)
  | i, trig :: trigs, d, mode => do
    let (d, mode) ← runTrigger w i node oldstate trig d mode
    runTriggers w node oldstate (i + 1) trigs d mode

/-- The check at the end of `stateTransition`; `i` is the number of triggers. -/
def checkModeTransition (w : World) (i : Nat) (node mode newstate : Str) (d : Daemon) : Option Daemon :=
  if modeTrans d.modeTrans (colon mode newstate) = [] then some d
  else
    match w.nextOpMode i with
    | some nextmode => if truthy nextmode then opModeTransition w.now (w.lookupSync i) node nextmode d else some d
    | none => some d

/-- `stateTransition`, from the first trigger on. -/
def afterTransition (w : World) (node mode oldstate newstate : Str) (d : Daemon) : Option Daemon := do
  let nodetrigs := getNodeTriggerList d.triggers node mode newstate true
  let trigs := getNodeTriggerList d.triggers node mode newstate false
  let (d, mode) ← runTriggers w node oldstate 0 trigs d mode
  let d := if trigs ≠ [] ∧ nodetrigs ≠ [] then
      { d with triggers := clearNodeTrigger d.triggers node mode newstate nodetrigs }
    else d
  checkModeTransition w trigs.length node mode newstate d

/-- `stateTransition`. A command that was pending is only reported. -/
def stateTransition (w : World) (node newstate : Str) (d : Daemon) : Option Daemon := do
  let info ← d.nodes node
  let mode ← info.mode
  let oldstate ← info.state
  let newstate := heldState d.soft oldstate (secureState d.valid mode oldstate newstate)
  afterTransition w node mode oldstate newstate
    (setTimeout w.now mode newstate node w.now (enter w.now true node info mode oldstate mode newstate d))

/-! ## Control events -/

def splitTag (tag : Str) : Option (Str × Str) :=
  match tag.splitOn ':' with
  | mode :: state :: _ => some (mode, state)
  | _ => none

/-- The action of a timeout: that of its row, if both names are true. -/
def timeoutAction (rows : List TimeoutRow) (mode state : Str) : Option Str :=
  if truthy mode ∧ truthy state then (timeouts rows mode state).bind TimeoutRow.action else none

def Node.count (info : Node) : Node := { info with timedout := info.timedout + 1 }

/-- What `$TBTIMEOUT` does before it acts: the tag is taken off, and the timeout is counted. -/
def countTimeout (node : Str) (info : Node) (d : Daemon) : Daemon :=
  { d with
    timeoutTag := update d.timeoutTag node none
    nodes := update d.nodes node (some info.count) }

/-- What it does then; `info` is the entry of the node. -/
def runAction (w : World) (node : Str) (info : Node) (mode state : Str) (d : Daemon) : Option Daemon :=
  let action := timeoutAction d.timeouts mode state
  if mode = TBCOMMAND then do
    let action ← action
    if action = CMDRETRY then handleCommand w.now node state info.timedout true d else some d
  else do
    let curstate ← info.state
    if curstate = PXEWAKEUP then some d
    else do
      let action ← action
      if REBOOT.isPrefixOf action then
        if 3 < info.timedout then
          some { d with nodes := update d.nodes node (some { info with noretry := true }) }
        else some d
      else if NOTIFY.isPrefixOf action then some d
      else
        match matchPath "STATE:".toList action with
        | some newstate => stateTransition w node newstate d
        | none => some d

/-- `handleCtrlEvent`. The other control events leave the tables of the daemon alone. -/
def handleCtrlEvent (w : World) (node event : Str) (d : Daemon) : Option Daemon :=
  if ¬w.lookup then some d
  else if event = TIMEOUT then do
    let tag ← d.timeoutTag node
    let info ← d.nodes node
    let (mode, state) ← splitTag tag
    runAction w node info.count mode state (countTimeout node info d)
  else some d

/-! ## Reading the database -/

/-- Whether the old entry of a node is kept. -/
def keepsOld (old : Option Node) (row : Row) : Option Bool :=
  match old, row.state, row.timestamp with
  | some o, some state, some timestamp =>
    if truthy state ∧ timestamp ≠ 0 then do
      let ostate ← o.state
      if ostate ≠ state then some false
      else do
        let omode ← o.mode
        let mode ← row.mode
        if omode ≠ mode then some false
        else do
          let otimestamp ← o.timestamp
          some (otimestamp = timestamp)
    else some false
  | _, _, _ => some false

/-- The entry that a row makes anew. -/
def Row.toNode (row : Row) : Node where
  state := row.state
  mode := row.mode
  timestamp := row.timestamp
  tag := row.tag.getD []

/-- The timeout of a new entry. `setTimeout` sets none without a mode or a state. -/
def newTimeout (now : Int) (row : Row) (d : Daemon) : Daemon :=
  match row.timestamp with
  | none => d
  | some timestamp =>
    if d.dbtag = row.tag.getD [] then
      match row.mode, row.state with
      | some mode, some state => setTimeout now mode state row.node timestamp d
      | _, _ => remTimeout row.node d
    else d

/-- One row in `readStates`; `nodes` is the new table. -/
def readState (now : Int) (oldnodes : Str → Option Node) (st : Daemon × (Str → Option Node)) (row : Row) :
    Option (Daemon × (Str → Option Node)) := do
  let (d, nodes) := st
  let d := if d.dbtag ≠ row.tag.getD [] then remTimeout row.node d else d
  let keep ← keepsOld (oldnodes row.node) row
  if keep then some (d, update nodes row.node (oldnodes row.node))
  else some (newTimeout now row d, update nodes row.node (some row.toNode))

/-- `getTimeouts`, `getValid`, `getModeTrans` and `getTriggers` -/
def readTables (db : Snapshot) (d : Daemon) : Daemon :=
  { d with
    timeouts := db.timeouts
    valid := db.valid
    modeTrans := db.modeTrans
    triggers := getTriggers db.triggers }

/-- `reload`, with `readStates` -/
def reload (w : World) (d : Daemon) : Option Daemon := do
  let (d, nodes) ← w.db.rows.foldlM (readState w.now d.nodes) (readTables w.db d, fun _ => none)
  some { d with nodes := nodes }

/-! ## Events and the main loop -/

/-- The types of events that the daemon has subscribed to. -/
inductive ObjType where
  | nodeState
  | nodeOpMode
  | control
  | command
  deriving DecidableEq

/-- `handleEvent`, for a node that is known and is ours -/
def dispatch (w : World) (objtype : ObjType) (objname eventtype : Str) (d : Daemon) : Option Daemon :=
  match objtype with
  | .nodeState => stateTransition w objname eventtype d
  | .nodeOpMode => opModeTransition w.now w.lookup objname eventtype d
  | .control => handleCtrlEvent w objname eventtype d
  | .command => handleCommand w.now objname eventtype 0 false d

/-- `handleEvent` reloads for a node that it does not know. -/
def prepare (w : World) (objtype : ObjType) (objname : Str) (d : Daemon) : Option Daemon :=
  if objtype ≠ .command ∧ d.nodes objname = none then reload w d else some d

/-- Whether the event is dispatched. -/
def accepts (w : World) (objtype : ObjType) (objname : Str) (d : Daemon) : Prop :=
  objtype = .command ∨ ((d.nodes objname).map Node.tag = some d.dbtag ∧ w.redirect)

instance (w : World) (objtype : ObjType) (objname : Str) (d : Daemon) :
    Decidable (accepts w objtype objname d) := inferInstanceAs (Decidable (_ ∨ _))

def handleEvent (w : World) (objtype : ObjType) (objname eventtype : Str) (d : Daemon) : Option Daemon := do
  let d ← prepare w objtype objname d
  if accepts w objtype objname d then dispatch w objtype objname eventtype d else some d

/-- One iteration of the loop over expired timeouts. -/
def expire (w : World) (d : Daemon) : Option Daemon :=
  match d.queue.qhead with
  | none => some d
  | some (deadline, node) =>
    if deadline ≤ w.now ∧ node ≠ [] then
      let d := { d with queue := d.queue.qpop }
      if (d.nodes node).isSome then handleCtrlEvent w node TIMEOUT d
      else some { d with timeoutTag := update d.timeoutTag node none }
    else some d

inductive Input where
  | event (objtype : ObjType) (objname eventtype : Str)
  | expire
  | reload

/-- The main loop takes one step. -/
def step (d : Daemon) (x : Input × World) : Option Daemon :=
  match x.1 with
  | .event objtype objname eventtype => handleEvent x.2 objtype objname eventtype d
  | .expire => Stated.expire x.2 d
  | .reload => Stated.reload x.2 d

/-- The daemon before it has read the database. -/
def Daemon.start (soft : Bool) (dbtag : Str) : Daemon where
  soft := soft
  dbtag := dbtag
  timeouts := []
  valid := []
  modeTrans := []
  triggers _ := none
  nodes _ := none
  queue := .empty
  timeoutTag _ := none
  writes := []

/-! ## What the routines can do -/

variable {w : World} {d d' : Daemon}

theorem handleCommand_cases {now : Int} {params command : Str} {retry : Nat} {force : Bool}
    (h : handleCommand now params command retry force d = some d') : ∃ nodes : List Str,
    d' = nodes.foldl (fun d node => setTimeout now TBCOMMAND command node now d) d := by
  unfold handleCommand at h
  dsimp only at h
  split at h
  · exact ⟨[], (Option.some.inj h).symm⟩
  split at h
  · obtain ⟨nodes, -, h⟩ := Option.bind_eq_some_iff.mp h
    exact ⟨nodes, (Option.some.inj h).symm⟩
  split at h
  · obtain ⟨node, -, h⟩ := Option.bind_eq_some_iff.mp h
    obtain ⟨info, -, h⟩ := Option.bind_eq_some_iff.mp h
    obtain ⟨state, -, h⟩ := Option.bind_eq_some_iff.mp h
    exact ⟨[], (Option.some.inj h).symm⟩
  · exact ⟨[], (Option.some.inj h).symm⟩

/-- What a trigger can do to the daemon. -/
inductive Triggered (w : World) (i : Nat) (node oldstate trig mode : Str) (d d' : Daemon) : Prop
  | nothing (h : d' = d)
  | opMode (lookup : Bool) (newmode : Str) (h : opModeTransition w.now lookup node newmode d = some d')
  | command (h : handleCommand w.now node trig 0 false d = some d')
  | node (info info' : Node) (hinfo : d.nodes node = some info) (hstate : info'.state = info.state)
      (hmode : info'.mode = info.mode ∨ Trigger.ofText trig = .booting ∧ forcesReload (w.bootWhat i) mode oldstate)
      (h : d' = { d with nodes := update d.nodes node (some info') })

theorem bootingTrigger_cases {i : Nat} {node oldstate trig mode mode' : Str}
    (htrig : Trigger.ofText trig = .booting) (h : bootingTrigger w i node oldstate d mode = some (d', mode')) :
    Triggered w i node oldstate trig mode d d' := by
  unfold bootingTrigger at h
  split at h
  · rename_i osid bootopmode hboot
    split at h
    · exact .nothing (Prod.mk.inj (Option.some.inj h)).1.symm
    rename_i hmode
    split at h
    · obtain ⟨d₁, hop, h⟩ := Option.bind_eq_some_iff.mp h
      exact .opMode _ _ ((Prod.mk.inj (Option.some.inj h)).1 ▸ hop)
    rename_i hkernel
    split at h
    · split at h
      · split at h
        · obtain ⟨d₁, hop, h⟩ := Option.bind_eq_some_iff.mp h
          exact .opMode _ _ ((Prod.mk.inj (Option.some.inj h)).1 ▸ hop)
        · exact .nothing (Prod.mk.inj (Option.some.inj h)).1.symm
      · exact .nothing (Prod.mk.inj (Option.some.inj h)).1.symm
    rename_i hisup
    split at h
    · -- the mode is set without a timeout
      rename_i hreload
      obtain ⟨info, hinfo, h⟩ := Option.bind_eq_some_iff.mp h
      refine .node info _ hinfo ?_ (.inr ⟨htrig, osid + 1, hreload ▸ hboot, Nat.succ_ne_zero _,
        fun heq => hmode (hreload.trans heq.symm), hkernel, hisup⟩)
        (Prod.mk.inj (Option.some.inj h)).1.symm
      rfl
    · exact .nothing (Prod.mk.inj (Option.some.inj h)).1.symm
  · exact .nothing (Prod.mk.inj (Option.some.inj h)).1.symm

theorem runTrigger_cases {i : Nat} {node oldstate trig mode mode' : Str}
    (h : runTrigger w i node oldstate trig d mode = some (d', mode')) :
    Triggered w i node oldstate trig mode d d' := by
  unfold runTrigger at h
  cases htrig : Trigger.ofText trig with
  | pxeBoot | secureBoot =>
    rw [htrig] at h
    dsimp only at h
    split at h
    · obtain ⟨d₁, hop, h⟩ := Option.bind_eq_some_iff.mp h
      exact .opMode _ _ ((Prod.mk.inj (Option.some.inj h)).1 ▸ hop)
    · exact .nothing (Prod.mk.inj (Option.some.inj h)).1.symm
  | booting =>
    rw [htrig] at h
    exact bootingTrigger_cases htrig h
  | reset =>
    rw [htrig] at h
    obtain ⟨info, hinfo, h⟩ := Option.bind_eq_some_iff.mp h
    refine .node info _ hinfo ?_ (.inl ?_) (Prod.mk.inj (Option.some.inj h)).1.symm <;> rfl
  | command =>
    rw [htrig] at h
    obtain ⟨d₁, hcommand, h⟩ := Option.bind_eq_some_iff.mp h
    exact .command ((Prod.mk.inj (Option.some.inj h)).1 ▸ hcommand)
  | _ =>
    rw [htrig] at h
    exact .nothing (Prod.mk.inj (Option.some.inj h)).1.symm

end Emulab.Stated
