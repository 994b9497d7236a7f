import Emulab.Assign.Features
import Emulab.Assign.Pclass
import Emulab.Assign.Resolve
import Emulab.Assign.Vclass

/-! # Adding and removing nodes

  `add_node` maps a vnode to a pnode and adjusts the score, `remove_node` takes
  the mapping back. `init_score` clears all assignments.
-/

namespace Emulab.Assign

variable {R : Type} [Double R]

/-! ## Section 1: The initial score -/

/-- The loop of `init_score` over the vnodes. -/
def initVnode (env : Env R) (s : State R) (v : VVertex) : State R :=
  let s := s.setVnode v fun n => { n with assigned := false }
  let s := s.sadd env.score.unassigned
  { s with
    vinfo := { s.vinfo with unassigned := s.vinfo.unassigned + 1 }
    violated := s.violated + 1 }

/-- The loop of `init_score` over the vlinks. -/
def initVlink (env : Env R) (s : State R) (e : VEdge) : State R :=
  let s := s.sadd env.score.noConnection
  let s := s.setVlink e fun l => { l with
    noConnection := true
    linkInfo := { l.linkInfo with typeUsed := .unmapped } }
  { s with
    vinfo := { s.vinfo with noConnection := s.vinfo.noConnection + 1 }
    violated := s.violated + 1 }

/-- The loop of `init_score` over the plinks. -/
def initPlink (s : State R) (e : PEdge) : State R :=
  s.setPlink e fun l => { l with bwUsed := 0, emulated := 0, nonemulated := 0 }

def initScore (env : Env R) (s : State R) : State R :=
  let s := { s with score := 0, violated := 0 }
  let s := env.vg.vertices.foldl (initVnode env) s
  let s := env.vg.edges.foldl (initVlink env) s
  env.pg.edges.foldl initPlink s

/-! ## Section 2: Types and loads -/

/-- `set_current_type`, for a type that the pnode has. -/
def setCurrentType (pv : PVertex) (type : String) (s : State R) : State R :=
  s.setPnode pv fun p =>
    { p with currentType := type, typed := true, currentTypeRecord := some type }

def removeCurrentType (pv : PVertex) (s : State R) : State R :=
  s.setPnode pv fun p => { p with typed := false, currentType := "", currentTypeRecord := none }

/-- The type handling of `add_node`: the record of the type, unless the pnode cannot take it on. -/
def takeType (env : Env R) (vv : VVertex) (pv : PVertex) (s : State R) : Option (TypeRecord × State R) :=
  let type := (s.vnode vv).type
  match (env.pg.pnode pv).findType type with
  | none => none
  | some tr =>
    if tr.staticType then
      if (s.pnode pv).load type < tr.maxLoad then some (tr, s) else none
    else if !(s.pnode pv).typed then
      some (tr, setCurrentType pv type s)
    else if (s.pnode pv).currentType ≠ type then
      none
    else
      some (tr, s)

/-- The type that `remove_node` takes the vnode to have been assigned to, with its record. If the pnode does
    not have the type of the vnode, then it must have been the dynamic type. -/
def recordOf (env : Env R) (vv : VVertex) (pv : PVertex) (s : State R) : Except Fault (String × TypeRecord) :=
  let type := (s.vnode vv).type
  match (env.pg.pnode pv).findType type with
  | some tr => .ok (type, tr)
  | none =>
    match (s.pnode pv).currentTypeRecord with
    | none => .error .nullPointer
    | some type =>
      match (env.pg.pnode pv).findType type with
      | none => .error .nullPointer
      | some tr => .ok (type, tr)

/-- `add_load` and `total_load +=` -/
def addLoad (pv : PVertex) (type : String) (howmuch : Int) (s : State R) : State R :=
  s.setPnode pv fun p => { p with
    load := Function.update p.load type (p.load type + howmuch)
    totalLoad := p.totalLoad + howmuch }

/-- The score for how full a pnode is with `strategy_balance`. -/
def balanceScore (env : Env R) (load maxLoad : Int) : R :=
  env.score.pnode * env.score.powf (1 + (((load : Int) : R) * 1) / ((maxLoad : Int) : R)) ((2 : Int) : R)

/-- The score for how empty a pnode is with `strategy_pack`. -/
def packScore (env : Env R) (load maxLoad : Int) : R :=
  env.score.pnode * env.score.powf
    ((((max (maxLoad - load) 0 : Int) : R) * 1) / ((maxLoad : Int) : R)) (1 / ((2 : Int) : R))

/-- The penalties of an overloaded pnode, one for each slot. -/
def addPenalties (env : Env R) : Nat → State R → State R
  | 0, s => s
  | n + 1, s =>
    let s := s.sadd env.score.pnodePenalty
    addPenalties env n { s with
      vinfo := { s.vinfo with pnodeLoad := s.vinfo.pnodeLoad + 1 }
      violated := s.violated + 1 }

/-- The penalties are removed again. -/
def removePenalties (env : Env R) : Nat → State R → State R
  | 0, s => s
  | n + 1, s =>
    let s := s.ssub env.score.pnodePenalty
    removePenalties env n { s with
      vinfo := { s.vinfo with pnodeLoad := s.vinfo.pnodeLoad - 1 }
      violated := s.violated - 1 }

/-- The scores of the strategies, when the load goes from `old` to `new`. -/
def scoreStrategies (env : Env R) (old new maxLoad : Int) (s : State R) : State R :=
  let s :=
    if env.opts.strategyBalance then
      (s.ssub (balanceScore env old maxLoad)).sadd (balanceScore env new maxLoad)
    else
      s
  if env.opts.strategyPack then
    (s.ssub (packScore env old maxLoad)).sadd (packScore env new maxLoad)
  else
    s

/-- A penalty for each slot by which a pnode is overloaded now. -/
def scoreOverload (env : Env R) (oldLoad load maxLoad : Int) (s : State R) : State R :=
  if maxLoad < load then addPenalties env (load - max oldLoad maxLoad).toNat s else s

/-- A pnode that has been free is used. -/
def scoreNewPnode (env : Env R) (pv : PVertex) (oldTotalLoad : Int) (s : State R) : State R :=
  if oldTotalLoad = 0 then
    usePtypes env (env.pg.pnode pv).typeList (s.sadd env.score.pnode)
  else
    s

/-- The loads in `add_node`. -/
def scoreLoad (env : Env R) (vv : VVertex) (pv : PVertex) (type : String) (tr : TypeRecord)
    (s : State R) : State R :=
  let p := s.pnode pv
  let load := p.load type + (env.vg.vnode vv).typecount
  let s := addLoad pv type (env.vg.vnode vv).typecount s
  let s := scoreOverload env (p.load type) load tr.maxLoad s
  let s := scoreNewPnode env pv p.totalLoad s
  scoreStrategies env (load - 1) load tr.maxLoad s

/-- A pnode is released that is free now. -/
def releasePnode (env : Env R) (pv : PVertex) (s : State R) : Except Fault (State R) := do
  let s := removeCurrentType pv (s.ssub env.score.pnode)
  let s ← pclassResetMaps env pv s
  releasePtypes env (env.pg.pnode pv).typeList s

/-- The loads in `remove_node`. -/
def unscoreLoad (env : Env R) (vv : VVertex) (pv : PVertex) (type : String) (tr : TypeRecord)
    (s : State R) : Except Fault (State R) :=
  let p := s.pnode pv
  let load := p.load type - (env.vg.vnode vv).typecount
  let s := addLoad pv type (-(env.vg.vnode vv).typecount) s
  let s := scoreStrategies env (load + 1) load tr.maxLoad s
  if p.totalLoad - (env.vg.vnode vv).typecount = 0 then
    releasePnode env pv s
  else if tr.maxLoad < p.load type then
    .ok (removePenalties env (p.load type - max load tr.maxLoad).toNat s)
  else
    .ok s

/-! ## Section 3: Subnodes -/

/-- A subnode is not on a subnode of the pnode that its parent is on. -/
def subnodeMismatch (env : Env R) (subnode parent : PVertex) : Bool :=
  (env.pg.pnode subnode).subnodeOf ≠ some parent

/-- How often a vnode on `pv` violates the relationship of subnodes. -/
def subnodeViolations (env : Env R) (vv : VVertex) (pv : PVertex) (s : State R) : Nat :=
  let vnode := env.vg.vnode vv
  let parent :=
    match vnode.subnodeOf with
    | some parent =>
      if (s.vnode parent).assigned && subnodeMismatch env pv (s.vnode parent).assignment then 1
      else 0
    | none => 0
  parent + vnode.subnodes.countP fun sub =>
    (s.vnode sub).assigned && subnodeMismatch env (s.vnode sub).assignment pv

def addSubnodes (env : Env R) : Nat → State R → State R
  | 0, s => s
  | n + 1, s =>
    let s := s.sadd env.score.subnode
    addSubnodes env n { s with
      violated := s.violated + 1
      vinfo := { s.vinfo with subnodes := s.vinfo.subnodes + 1 } }

/-- The violations are removed one by one. -/
def removeSubnodes (env : Env R) : Nat → State R → State R
  | 0, s => s
  | n + 1, s =>
    let s := s.ssub env.score.subnode
    removeSubnodes env n { s with
      violated := s.violated - 1
      vinfo := { s.vinfo with subnodes := s.vinfo.subnodes - 1 } }

/-! ## Section 4: Features and classes -/

/-- The desires of a vnode that is assigned. Fixed vnodes do not violate them. -/
def scoreDesires (env : Env R) (vv : VVertex) (pv : PVertex) (isFixed : Bool) (s : State R) :
    Except Fault (State R) := do
  let (sv, s) ← scoreFds env vv pv true s
  let s := s.sadd sv.1
  if !isFixed then
    .ok { s with
      violated := s.violated + sv.2
      vinfo := { s.vinfo with desires := s.vinfo.desires + sv.2 } }
  else
    .ok s

/-- The desires of a vnode that is not assigned any more. -/
def unscoreDesires (env : Env R) (vv : VVertex) (pv : PVertex) (s : State R) : Except Fault (State R) := do
  let (sv, s) ← scoreFds env vv pv false s
  let s := s.ssub sv.1
  .ok { s with
    violated := s.violated - sv.2
    vinfo := { s.vinfo with desires := s.vinfo.desires - sv.2 } }

/-- The pclass of the pnode counts, and is not in use. -/
def pclassUnused (env : Env R) (pv : PVertex) (tr : TypeRecord) (s : State R) : Bool :=
  match (env.pg.pnode pv).myClass with
  | some c => !env.opts.disablePclasses && !tr.staticType && (s.pclass c).usedMembers = 0
  | none => false

/-- The vclass in `add_node`. -/
def scoreVclass (env : Env R) (vv : VVertex) (s : State R) : State R :=
  match (env.vg.vnode vv).vclass with
  | none => s
  | some name =>
    let (scoreDelta, vclass) := (s.vclass name).assignNode (s.vnode vv).type
    let s := { s with vclass := Function.update s.vclass name vclass }
    let s := s.sadd (scoreDelta * env.score.vclass)
    if 1 ≤ scoreDelta then
      { s with
        violated := s.violated + 1
        vinfo := { s.vinfo with vclass := s.vinfo.vclass + 1 } }
    else
      s

/-- The vclass in `remove_node`. -/
def unscoreVclass (env : Env R) (vv : VVertex) (s : State R) : State R :=
  match (env.vg.vnode vv).vclass with
  | none => s
  | some name =>
    let (scoreDelta, vclass) := (s.vclass name).unassignNode (s.vnode vv).type
    let s := { s with vclass := Function.update s.vclass name vclass }
    let s :=
      if scoreDelta ≤ -1 then
        { s with
          violated := s.violated - 1
          vinfo := { s.vinfo with vclass := s.vinfo.vclass - 1 } }
      else
        s
    s.ssub (-scoreDelta * env.score.vclass)

/-- A dynamic type takes the pnode out of the lists of its pclass. -/
def usePclass (env : Env R) (pv : PVertex) (tr : TypeRecord) (s : State R) : Except Fault (State R) :=
  match (env.pg.pnode pv).myClass with
  | some c => if !tr.staticType then pclassSet env pv c s else .ok s
  | none => .ok s

def releasePclass (env : Env R) (pv : PVertex) (tr : TypeRecord) (s : State R) : Except Fault (State R) :=
  match (env.pg.pnode pv).myClass with
  | some c => if !tr.staticType then pclassUnset env pv c s else .ok s
  | none => .ok s

/-! ## Section 5: Adding a node -/

/-- The vnode is not unassigned any more. -/
def scoreAssigned (env : Env R) (s : State R) : State R :=
  let s := s.ssub env.score.unassigned
  { s with
    vinfo := { s.vinfo with unassigned := s.vinfo.unassigned - 1 }
    violated := s.violated - 1 }

/-- What `add_node` does when the type has been found. -/
def addTyped (env : Env R) (vv : VVertex) (pv : PVertex) (deterministic isFixed skipLinks : Bool)
    (random : VEdge → Nat) (tr : TypeRecord) (s : State R) : Except Fault (State R) := do
  let type := (s.vnode vv).type
  let s := addSubnodes env (subnodeViolations env vv pv s) s
  -- this is done now so that loopback links work
  let s := s.setVnode vv fun v => { v with assignment := pv, assigned := true }
  let s ← (if skipLinks then .ok s else resolveLinks env vv pv deterministic random s)
  let s := scoreLoad env vv pv type tr s
  let s := scoreAssigned env s
  let s ← scoreDesires env vv pv isFixed s
  let s := if pclassUnused env pv tr s then s.sadd env.score.pclass else s
  let s := scoreVclass env vv s
  usePclass env pv tr s

/-- `add_node`. The result is 1 if the mapping is incompatible, and 0 otherwise. -/
def addNode (env : Env R) (vv : VVertex) (pv : PVertex) (deterministic isFixed skipLinks : Bool)
    (random : VEdge → Nat) (s : State R) : Except Fault (Nat × State R) :=
  if !(s.vnode vv).assigned then
    match takeType env vv pv s with
    | none => .ok (1, s)
    | some (tr, s) => do
      let s ← addTyped env vv pv deterministic isFixed skipLinks random tr s
      .ok (0, s)
  else
    .error .assertion

/-! ## Section 6: Removing a node -/

/-- A turn of the loop of `remove_node` over the links of the vnode. -/
def removeLink (env : Env R) (vv : VVertex) (pv : PVertex) (ve : VEdge) (s : State R) : Except Fault (State R) :=
  let destVv := env.vg.otherEnd vv ve
  -- only the first end to be unmapped causes unscoring
  if !(s.vnode destVv).assigned then
    .ok s
  else do
    let s ← unscoreLinkInfo env ve pv (s.vnode destVv).assignment vv destVv s
    if !(s.vlink ve).noConnection then markVlinkUnassigned env ve s else .ok s

/-- The loop of `remove_node` over the links of the vnode. A loopback link is seen twice. -/
def removeLinksLoop (env : Env R) (vv : VVertex) (pv : PVertex) :
    List VEdge → List VEdge → State R → Except Fault (State R)
  | [], _, s => .ok s
  | ve :: ves, seenLoopback, s =>
    if env.vg.otherEnd vv ve = vv then
      if ve ∈ seenLoopback then
        removeLinksLoop env vv pv ves seenLoopback s
      else do
        let s ← removeLink env vv pv ve s
        removeLinksLoop env vv pv ves (ve :: seenLoopback) s
    else do
      let s ← removeLink env vv pv ve s
      removeLinksLoop env vv pv ves seenLoopback s

def scoreUnassigned (env : Env R) (vv : VVertex) (s : State R) : State R :=
  let s := s.setVnode vv fun v => { v with assigned := false }
  let s := s.sadd env.score.unassigned
  { s with
    vinfo := { s.vinfo with unassigned := s.vinfo.unassigned + 1 }
    violated := s.violated + 1 }

def removeNode (env : Env R) (vv : VVertex) (s : State R) : Except Fault (State R) :=
  if (s.vnode vv).assigned then do
    let pv := (s.vnode vv).assignment
    let (type, tr) ← recordOf env vv pv s
    let s ← releasePclass env pv tr s
    let s := if pclassUnused env pv tr s then s.ssub env.score.pclass else s
    let s := unscoreVclass env vv s
    let s := removeSubnodes env (subnodeViolations env vv pv s) s
    let s ← removeLinksLoop env vv pv (env.vg.outEdges vv) [] s
    let s ← unscoreLoad env vv pv type tr s
    let s := scoreUnassigned env vv s
    unscoreDesires env vv pv s
  else
    .error .assertion

end Emulab.Assign
