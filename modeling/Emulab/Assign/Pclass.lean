import Emulab.Assign.State

/-! # Physical equivalence classes and types

  A pclass keeps for each type the list of its pnodes that can be used for
  it. A ptype counts its users against a limit.
-/

namespace Emulab.Assign

variable {R : Type}

/-! ## Section 1: Members of a pclass -/

/-- What `pclass_set` does with one list of the members. -/
def pclassSetMember (env : Env R) (pv : PVertex) (p : PnodeState) (m : String × List PVertex) :
    Except Fault (String × List PVertex) :=
  if m.1 = p.currentType then
    match p.currentTypeRecord.bind fun t => ((env.pg.pnode pv).findType t).map (p.load t, ·) with
    | none => .error .nullPointer
    | some (load, tr) =>
      -- same class: only remove if node is full
      if load = tr.maxLoad ∨ (env.pg.pnode pv).myOwnClass.isSome then
        .ok (m.1, m.2.erase pv)
      else
        .ok m
  else
    match (env.pg.pnode pv).findType m.1 with
    | none => .error .nullPointer
    | some tr => .ok (if tr.staticType then m else (m.1, m.2.erase pv))

/-- `my_own_class->disabled`, if the pnode has a class of its own. -/
def setOwnDisabled (env : Env R) (pv : PVertex) (disabled : Bool) (s : State R) : State R :=
  match (env.pg.pnode pv).myOwnClass with
  | some own => s.setPclass own fun c => { c with disabled := disabled }
  | none => s

/-- `pclass_set`, for a pnode in the pclass `c`. -/
def pclassSet (env : Env R) (pv : PVertex) (c : Nat) (s : State R) : Except Fault (State R) := do
  let p := s.pnode pv
  let members ← (s.pclass c).members.mapM (pclassSetMember env pv p)
  let s := if (s.pclass c).members.any (·.1 = p.currentType) then setOwnDisabled env pv false s else s
  .ok (s.setPclass c fun c => { c with members := members, usedMembers := c.usedMembers + 1 })

/-- What `pclass_unset` does with one list of the members. -/
def pclassUnsetMember (pv : PVertex) (p : PnodeState) (m : String × List PVertex) :
    Except Fault (String × List PVertex) :=
  if m.1 = p.currentType ∧ pv ∉ m.2 then
    match p.currentTypeRecord with
    | none => .error .nullPointer
    | some t =>
      if 0 < p.load t then
        -- unset is called before the counts are decremented, so empty means one user
        if p.load t = 1 then .ok (m.1, m.2 ++ [pv]) else .ok (m.1, pv :: m.2)
      else
        .error .assertion
  else
    .ok m

def pclassUnset (env : Env R) (pv : PVertex) (c : Nat) (s : State R) : Except Fault (State R) := do
  let p := s.pnode pv
  let members ← (s.pclass c).members.mapM (pclassUnsetMember pv p)
  let s := if p.totalLoad = 1 then setOwnDisabled env pv true s else s
  .ok (s.setPclass c fun c => { c with members := members, usedMembers := c.usedMembers - 1 })

def pclassResetMaps (env : Env R) (pv : PVertex) (s : State R) : Except Fault (State R) :=
  match (env.pg.pnode pv).myClass with
  | none => .error .nullPointer
  | some c => .ok (s.setPclass c fun c => { c with
      members := c.members.map fun m => if pv ∈ m.2 then m else (m.1, pv :: m.2) })

/-! ## Section 2: Users of a ptype -/

/-- `add_users`: one violation if the limit is passed. -/
def addUsers (env : Env R) (ptype : String) (count : Int) (s : State R) : Int × State R :=
  let oldusers := s.ptypeUsers ptype
  let users := oldusers + count
  let maxUsers := env.ptypeMaxUsers ptype
  (if 0 ≤ maxUsers ∧ oldusers ≤ maxUsers ∧ maxUsers < users then 1 else 0,
    { s with ptypeUsers := Function.update s.ptypeUsers ptype users })

def removeUsers (env : Env R) (ptype : String) (count : Int) (s : State R) : Except Fault (Int × State R) :=
  let oldusers := s.ptypeUsers ptype
  let users := oldusers - count
  let maxUsers := env.ptypeMaxUsers ptype
  if 0 ≤ users then
    .ok (if 0 ≤ maxUsers ∧ maxUsers < oldusers ∧ users ≤ maxUsers then 1 else 0,
      { s with ptypeUsers := Function.update s.ptypeUsers ptype users })
  else
    .error .assertion

variable [Double R]

/-- The loop of `add_node` over the types of a pnode that has been free. -/
def usePtypes (env : Env R) : List (String × Int) → State R → State R
  | [], s => s
  | (ptype, maxLoad) :: types, s =>
    let (newViolations, s) := addUsers env ptype maxLoad s
    let s :=
      if newViolations ≠ 0 then
        let s := s.sadd (env.score.maxTypes * (newViolations : R))
        { s with
          violated := s.violated + newViolations
          vinfo := { s.vinfo with maxTypes := s.vinfo.maxTypes + newViolations } }
      else
        s
    usePtypes env types s

/-- The loop of `remove_node` over the types of a pnode that is free again. -/
def releasePtypes (env : Env R) : List (String × Int) → State R → Except Fault (State R)
  | [], s => .ok s
  | (ptype, maxLoad) :: types, s => do
    let (removedViolations, s) ← removeUsers env ptype maxLoad s
    let s :=
      if removedViolations ≠ 0 then
        let s := s.ssub (env.score.maxTypes * (removedViolations : R))
        { s with
          violated := s.violated - removedViolations
          vinfo := { s.vinfo with maxTypes := s.vinfo.maxTypes - removedViolations } }
      else
        s
    releasePtypes env types s

end Emulab.Assign
