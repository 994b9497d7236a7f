import Emulab.Assign.State

/-! # Features and desires

  A vnode has desires and a pnode has features, sorted by their identifiers.
  Assigning a vnode is scored by what is on one side only, and by how much of
  a feature is used where it has a capacity or is counted globally.
-/

namespace Emulab.Assign

/-! ## Section 1: Going through two sets -/

/-- A step of `tb_featuredesire_set_iterator`. A feature comes with its place in the list of the pnode. -/
inductive Membership (R : Type) where
  | firstOnly (d : NodeFd R)
  | secondOnly (f : NodeFd R) (i : Nat)
  | both (d f : NodeFd R) (i : Nat)

variable {R : Type}

/-- The steps of the iterator over two sorted lists, at most as many as allowed. -/
def memberships : Nat → List (NodeFd R) → List (NodeFd R × Nat) → List (Membership R)
  | 0, _, _ => []
  | _ + 1, [], [] => []
  | n + 1, d :: ds, [] => .firstOnly d :: memberships n ds []
  | n + 1, [], (f, i) :: fs => .secondOnly f i :: memberships n [] fs
  | n + 1, d :: ds, (f, i) :: fs =>
    if d.fd < f.fd then
      .firstOnly d :: memberships n ds ((f, i) :: fs)
    else if f.fd < d.fd then
      .secondOnly f i :: memberships n (d :: ds) fs
    else
      .both d f i :: memberships n ds fs

/-- All steps of the iterator. -/
def featureDesireSet (ds fs : List (NodeFd R)) : List (Membership R) :=
  memberships (ds.length + fs.length) ds fs.zipIdx

/-! ## Section 2: Users of a feature -/

variable [Double R]

abbrev ScoreAndViolations (R : Type) := R × Int

def addGlobalUser (env : Env R) (f : NodeFd R) (s : State R) : ScoreAndViolations R × State R :=
  let inUse := s.inUseGlobally f.fd + 1
  let s := { s with inUseGlobally := Function.update s.inUseGlobally f.fd inUse }
  let penalty : ScoreAndViolations R := (0 + f.weight, if f.violateable then 1 else 0)
  if (env.feature f.fd).gOneIsOkay ∧ 2 ≤ inUse then (penalty, s)
  else if (env.feature f.fd).gMoreThanOne ∧ inUse = 1 then (penalty, s)
  else ((0, 0), s)

def removeGlobalUser (env : Env R) (f : NodeFd R) (s : State R) : Except Fault (ScoreAndViolations R × State R) :=
  let inUse := s.inUseGlobally f.fd - 1
  let s := { s with inUseGlobally := Function.update s.inUseGlobally f.fd inUse }
  let penalty : ScoreAndViolations R := (0 + f.weight, if f.violateable then 1 else 0)
  if 0 ≤ inUse then
    if (env.feature f.fd).gOneIsOkay ∧ 1 ≤ inUse then .ok (penalty, s)
    else if (env.feature f.fd).gMoreThanOne ∧ inUse = 0 then .ok (penalty, s)
    else .ok ((0, 0), s)
  else
    .error .assertion

def setUsedLocal (s : State R) (pv : PVertex) (i : Nat) (used : R) : State R :=
  { s with usedLocalCapacity :=
      Function.update s.usedLocalCapacity pv (Function.update (s.usedLocalCapacity pv) i used) }

/-- `add_local`, for the feature at place `i` of a pnode. -/
def addLocal (env : Env R) (pv : PVertex) (f : NodeFd R) (i : Nat) (amount : R) (s : State R) :
    ScoreAndViolations R × State R :=
  let oldvalue := s.usedLocalCapacity pv i
  let used := oldvalue + amount
  (if oldvalue ≤ f.weight ∧ f.weight < used then (env.score.overusedLocalFeature, 1) else (0, 0),
    setUsedLocal s pv i used)

def subtractLocal (env : Env R) (pv : PVertex) (f : NodeFd R) (i : Nat) (amount : R)
    (s : State R) : ScoreAndViolations R × State R :=
  let oldvalue := s.usedLocalCapacity pv i
  let used := oldvalue - amount
  (if f.weight < oldvalue ∧ used ≤ f.weight then (env.score.overusedLocalFeature, 1) else (0, 0),
    setUsedLocal s pv i used)

/-! ## Section 3: Scoring -/

/-- What a step of the loop of `score_fds` adds. -/
def scoreFd (env : Env R) (pv : PVertex) (add : Bool) (m : Membership R) (s : State R) :
    Except Fault (ScoreAndViolations R × State R) :=
  match m with
  | .both d f i =>
    if (env.feature d.fd).isLocal ∧ (env.feature d.fd).lAdditive then
      if add then .ok (addLocal env pv f i d.weight s)
      else .ok (subtractLocal env pv f i d.weight s)
    else
      .ok ((0, 0), s)
  | .firstOnly d =>
    .ok ((if (env.feature d.fd).isLocal then env.score.missingLocalFeature else d.weight,
      if d.violateable then 1 else 0), s)
  | .secondOnly f _ =>
    if (env.feature f.fd).isLocal then
      .ok ((0, 0), s)
    else if (env.feature f.fd).isGlobal then
      if add then .ok (addGlobalUser env f s) else removeGlobalUser env f s
    else
      .ok ((f.weight, if f.violateable then 1 else 0), s)

/-- The loop of `score_fds`. -/
def scoreFdsLoop (env : Env R) (pv : PVertex) (add : Bool) :
    List (Membership R) → ScoreAndViolations R → State R → Except Fault (ScoreAndViolations R × State R)
  | [], sv, s => .ok (sv, s)
  | m :: ms, sv, s => do
    let (delta, s) ← scoreFd env pv add m s
    scoreFdsLoop env pv add ms (sv.1 + delta.1, sv.2 + delta.2) s

def scoreFds (env : Env R) (vv : VVertex) (pv : PVertex) (add : Bool) (s : State R) :
    Except Fault (ScoreAndViolations R × State R) :=
  scoreFdsLoop env pv add (featureDesireSet (env.vg.vnode vv).desires (env.pg.pnode pv).features) (0, 0) s

end Emulab.Assign
