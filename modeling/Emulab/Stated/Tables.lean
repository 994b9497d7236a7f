import Mathlib.Tactic

/-! # The tables of `stated`

  Valid transitions, mode transitions, timeouts and triggers, as they are read
  from the database. Mode transitions and triggers are kept under keys in which
  names are joined by a colon.
-/

namespace Emulab.Stated

/-- Names of nodes, modes and states, and other text. -/
abbrev Str := List Char

/-- Strings are compared as they are. -/
local instance lawfulStr : LawfulBEq Str := inferInstance

/-! ## Text -/

/-- Whether a defined scalar is true. -/
def truthy (s : Str) : Bool := s ≠ [] && s ≠ ['0']

/-- `"$a:$b"` -/
def colon (a b : Str) : Str := a ++ ':' :: b

/-- `split` of a list: empty fields at the end are left out. -/
def split (p : Char → Bool) (s : Str) : List Str :=
  ((s.splitOnP p).reverse.dropWhile (· = [])).reverse

/-- `join(",", ...)` -/
def joinComma (l : List Str) : Str := [','].intercalate l

/-- The assignment of a list to a hash, as pairs. An odd number of elements is
    a warning, and on a warning the daemon exits. -/
def pairs : List Str → Option (List (Str × Str))
  | [] => some []
  | [_] => none
  | k :: v :: rest => (pairs rest).map ((k, v) :: ·)

/-- The value of a key: a later pair replaces an earlier one. -/
def lookupPair (l : List (Str × Str)) (k : Str) : Option Str := (l.reverse.find? (·.1 = k)).map (·.2)

/-! ## Names -/

def SECVIOLATION : Str := "SECVIOLATION".toList
def SHUTDOWN : Str := "SHUTDOWN".toList
def POWEROFF : Str := "POWEROFF".toList
def GPXEBOOTING : Str := "GPXEBOOTING".toList
def REBOOTING : Str := "REBOOTING".toList
def ISUP : Str := "ISUP".toList
def TBFAILED : Str := "TBFAILED".toList
def PXEWAKEUP : Str := "PXEWAKEUP".toList
def PXEKERNEL : Str := "PXEKERNEL".toList
def SECUREBOOT : Str := "SECUREBOOT".toList
def SECURELOAD : Str := "SECURELOAD".toList
def RELOAD : Str := "RELOAD".toList
def TBCOMMAND : Str := "TBCOMMAND".toList
def REBOOT : Str := "REBOOT".toList
def POWERON : Str := "POWERON".toList
def POWERCYCLE : Str := "POWERCYCLE".toList
def CMDRETRY : Str := "CMDRETRY".toList
def NOTIFY : Str := "NOTIFY".toList
def TIMEOUT : Str := "TIMEOUT".toList

/-- `$TBANYMODE`, and the wildcard of state transitions and of trigger nodes -/
def ANY : Str := "*".toList

/-! ## Valid transitions -/

/-- A row of `state_transitions`: mode, old state, new state. -/
abbrev ValidRow := Str × Str × Str

def isValidTransition (valid : List ValidRow) (mode oldstate newstate : Str) : Bool :=
  if ¬valid.any (·.1 = mode) then false
  else if (mode, oldstate, newstate) ∈ valid then true
  else (mode, ANY, newstate) ∈ valid

/-! ## Mode transitions -/

/-- A row of `mode_transitions` -/
structure ModeTransRow where
  opMode1 : Str
  state1 : Str
  opMode2 : Str
  state2 : Str
  deriving DecidableEq

/-- `$modeTrans{$key}`; a key that is not defined has no transitions. -/
def modeTrans (rows : List ModeTransRow) (key : Str) : List Str :=
  (rows.filter fun r => colon r.opMode1 r.state1 = key).map fun r => colon r.opMode2 r.state2

/-- `$trans{$newmode}` in `opModeTransition`, where `$modeTrans{"$mode:$oldstate"}`
    is defined. The list is joined and split again. -/
def transState (rows : List ModeTransRow) (mode oldstate newmode : Str) : Option (Option Str) :=
  match modeTrans rows (colon mode oldstate) with
  | [] => some none
  | l => (pairs (split (fun c => c = ':' || c = ',') (joinComma l))).map (lookupPair · newmode)

/-! ## Timeouts -/

/-- A row of `state_timeouts` -/
structure TimeoutRow where
  opMode : Str
  state : Str
  timeout : Option Int
  action : Option Str
  deriving DecidableEq

/-- `$timeouts{$mode}{$state}` -/
def timeouts (rows : List TimeoutRow) (mode state : Str) : Option TimeoutRow :=
  rows.reverse.find? fun r => r.opMode = mode && r.state = state

/-! ## Triggers -/

/-- A row of `state_triggers`, the list of triggers being split. -/
structure TriggerRow where
  node : Str
  opMode : Str
  state : Str
  trigs : List Str

/-- `"$node:$mode:$state"` -/
def nodeKey (node mode state : Str) : Str := colon node (colon mode state)

def getTriggers (rows : List TriggerRow) : Str → Option (List Str) :=
  let globals := (rows.filter (·.node = ANY)).foldl
    (fun t r => Function.update t (colon r.opMode r.state) (some r.trigs)) fun _ => none
  (rows.filter (·.node ≠ ANY)).foldl
    (fun t r => Function.update t (nodeKey r.node r.opMode r.state) (some r.trigs)) globals

def getNodeTriggerList (triggers : Str → Option (List Str)) (node mode state : Str) (justnode : Bool) : List Str :=
  let l := (triggers (nodeKey node mode state)).getD [] ++ (triggers (nodeKey node ANY state)).getD []
  if justnode then l
  else
    match triggers (colon mode state) with
    | some trigs => l ++ trigs
    | none => l ++ (triggers (colon ANY state)).getD []

def clearNodeTrigger (triggers : Str → Option (List Str)) (node mode state : Str) (trigs : List Str) :
    Str → Option (List Str) :=
  let reallist := getNodeTriggerList triggers node mode state false
  if trigs = [] ∨ reallist.Perm trigs then
    Function.update (Function.update triggers (nodeKey node mode state) none) (nodeKey node ANY state) none
  else
    -- the order of what is left is that of a hash
    let newtrigs := (getNodeTriggerList triggers node mode state true).dedup.filter (· ∉ trigs)
    Function.update triggers (nodeKey node mode state) (if newtrigs = [] then none else some newtrigs)

/-- What the regular expressions make of the text of a trigger. -/
inductive Trigger where
  | script
  | pxeBoot
  | secureBoot
  | booting
  | checkGenIsUp
  | checkPortReg
  | pxeReset
  | reset
  | reloadDone
  | isUp
  | command
  | emailNotify
  | reloadOldMfs
  | unknown
  deriving DecidableEq

/-- `[-\w\/]` -/
def isPathChar (c : Char) : Bool := c.isAlphanum || c = '_' || c = '-' || c = '/'

/-- `/^$head([-\w\/]+)$/`, with what is matched in parentheses -/
def matchPath (head s : Str) : Option Str :=
  let rest := s.drop head.length
  if head.isPrefixOf s ∧ rest ≠ [] ∧ rest.all isPathChar then some rest else none

def Trigger.ofText (trig : Str) : Trigger :=
  if (matchPath "SCRIPT:".toList trig).isSome then script
  else if trig = "PXEBOOT".toList then pxeBoot
  else if trig = SECUREBOOT then secureBoot
  else if trig = "BOOTING".toList then booting
  else if trig = "CHECKGENISUP".toList then checkGenIsUp
  else if trig = "CHECKPORTREG".toList then checkPortReg
  else if trig = "PXERESET".toList then pxeReset
  else if trig = "RESET".toList then reset
  else if trig = "RELOADDONE".toList ∨ trig = "RELOADDONEV2".toList then reloadDone
  else if trig = ISUP then isUp
  else if trig = REBOOT ∨ trig = POWERCYCLE ∨ trig = POWEROFF then command
  else if trig = "EMAILNOTIFY".toList then emailNotify
  else if trig = "RELOADOLDMFS".toList then reloadOldMfs
  else unknown

end Emulab.Stated
