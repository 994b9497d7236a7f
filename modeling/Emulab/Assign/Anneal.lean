import Emulab.Assign.Hosting
import Emulab.Lib.Classify

/-! # The main loop of the annealer

  Each turn of the inner loop of `anneal` tries one move: a vnode is taken, one
  that is not assigned if there is any, a pnode is looked for that it can be
  mapped to, the vnode is removed from where it was, and added there. If the
  move is not accepted it is undone.

  This is without fixed nodes and hints, which are mapped before the loop.
  Random numbers, and whether a move is accepted, are given with the turn.
-/

namespace Emulab.Assign

open Classify

variable {R : Type}

/-! ## Section 1: The neighborhood of a solution -/

/-- `pnode_is_match`: if it is okay to map the vnode to the pnode. -/
def pnodeIsMatch (env : Env R) (vv : VVertex) (pv : PVertex) (s : State R) : Except Fault Bool :=
  let type := (s.vnode vv).type
  let typecount := (env.vg.vnode vv).typecount
  let p := s.pnode pv
  match (env.pg.pnode pv).findType type with
  | none => .ok false
  | some tr =>
    let overload := env.opts.allowOverload && decide (1 < tr.maxLoad)
    if tr.staticType then
      .ok (if tr.maxLoad < p.load type + typecount then overload else true)
    else if p.typed then
      if p.currentType ≠ type then
        .ok false
      else
        match p.currentTypeRecord.bind fun t => ((env.pg.pnode pv).findType t).map (p.load t, ·) with
        | none => .error .nullPointer
        | some (load, current) =>
          .ok (if current.maxLoad < load + typecount then overload else true)
    else
      -- the pnode does not have a type
      .ok true

/-- The loop of `find_pnode_connected` over the edges of the vnode. -/
def findConnectedLoop (env : Env R) (vv : VVertex) (s : State R) : List VEdge → Except Fault (Option PVertex)
  | [] => .ok none
  | ve :: ves =>
    let neighbor := s.vnode (env.vg.otherEnd vv ve)
    if !neighbor.assigned then
      findConnectedLoop env vv s ves
    else if neighbor.assignment = (s.vnode vv).assignment then
      findConnectedLoop env vv s ves
    else do
      let isMatch ← pnodeIsMatch env vv neighbor.assignment s
      if isMatch then .ok (some neighbor.assignment) else findConnectedLoop env vv s ves

/-- `find_pnode_connected`: a pnode that a neighbor of the vnode is mapped to. -/
def findPnodeConnected (env : Env R) (o : IterationOrder VEdge) (vv : VVertex) (s : State R) :
    Except Fault (Option PVertex) :=
  findConnectedLoop env vv s (o.order (env.vg.outEdges vv))

def findMember (env : Env R) (vv : VVertex) (s : State R) : List PVertex → Except Fault (Option PVertex)
  | [] => .ok none
  | pv :: pvs => do
    let isMatch ← pnodeIsMatch env vv pv s
    if isMatch then .ok (some pv) else findMember env vv s pvs

/-- The loop of `find_pnode` over the pclasses. -/
def findPnodeLoop (env : Env R) (vv : VVertex) (s : State R) : List Nat → Except Fault (Option PVertex)
  | [] => .ok none
  | c :: cs =>
    if (s.pclass c).disabled then
      findPnodeLoop env vv s cs
    else
      match (s.pclass c).members.lookup (s.vnode vv).type with
      | none => findPnodeLoop env vv s cs
      | some list => do
        let found ← findMember env vv s list
        match found with
        | some pv => .ok (some pv)
        | none => findPnodeLoop env vv s cs

/-- `find_pnode`. The table has the pclasses that the precheck has left for the vnode. -/
def findPnode (env : Env R) (vnodeTypeTable : VVertex → List Nat) (o : IterationOrder Nat)
    (vv : VVertex) (s : State R) : Except Fault (Option PVertex) :=
  findPnodeLoop env vv s (o.order (vnodeTypeTable vv))

/-! ## Section 2: A turn of the loop -/

structure Annealing (R : Type) where
  state : State R
  unassigned : List VVertex

/-- What is decided by chance in a turn. -/
structure Turn where
  choice : Nat
  coin : Nat
  type : Nat
  connected : Bool
  visitOrder : IterationOrder VEdge
  traversalOrder : IterationOrder Nat
  toremove : Nat
  random : VEdge → Nat
  /-- Scores and the temperature decide that, and a random number. -/
  accepttrans : Bool
  randomBack : VEdge → Nat

/-- The vnode of the turn, and the list of the other unassigned ones. -/
def pickVnode (env : Env R) (turn : Turn) (a : Annealing R) : Except Fault (VVertex × List VVertex) :=
  if a.unassigned ≠ [] then
    let choice := turn.choice % a.unassigned.length
    match a.unassigned[choice]? with
    | none => .error .assertion
    | some vv =>
      if !(a.state.vnode vv).assigned then .ok (vv, a.unassigned.eraseIdx choice)
      else .error .assertion
  else
    match env.vg.vertices[turn.choice % env.vg.vertices.length]? with
    | none => .error .undefined
    | some vv => .ok (vv, [])

/-- The vtype picks a type to masquerade as for now. -/
def pickType (env : Env R) (turn : Turn) (vv : VVertex) (s : State R) : Except Fault (State R) :=
  match (env.vg.vnode vv).vclass with
  | none => .ok s
  | some name => do
    let type ← (s.vclass name).chooseType turn.coin turn.type
    .ok (s.chooseType vv (some type))

def pickPnode (env : Env R) (vnodeTypeTable : VVertex → List Nat) (turn : Turn) (vv : VVertex)
    (s : State R) : Except Fault (Option PVertex) := do
  let newpnode ← (if turn.connected then findPnodeConnected env turn.visitOrder vv s else .ok none)
  match newpnode with
  | some pv => .ok (some pv)
  | none => findPnode env vnodeTypeTable turn.traversalOrder vv s

variable [Double R]

/-- Some other vnode is freed, so that there is progress. -/
def freeOther (env : Env R) (turn : Turn) (a : Annealing R) : Except Fault (Annealing R) :=
  match (env.vg.vertices.rotate turn.toremove).find? fun v => (a.state.vnode v).assigned with
  | none => .ok a
  | some toremove => do
    let s ← removeNode env toremove a.state
    .ok ⟨s, toremove :: a.unassigned⟩

/-- The change is rejected: go back to the state before. If the vnode cannot be
    mapped again then it is not in the list either. -/
def rejectMove (env : Env R) (turn : Turn) (vv : VVertex) (oldassigned : Bool) (oldpos : PVertex)
    (a : Annealing R) : Except Fault (Annealing R) := do
  let s ← removeNode env vv a.state
  if oldassigned then
    let (_, s) ← addNode env vv oldpos false false false turn.randomBack s
    .ok ⟨s, a.unassigned⟩
  else
    .ok ⟨s, vv :: a.unassigned⟩

/-- The vnode has been freed and is added to the new pnode. -/
def tryMove (env : Env R) (turn : Turn) (vv : VVertex) (oldassigned : Bool) (oldpos newpos : PVertex)
    (a : Annealing R) : Except Fault (Annealing R) := do
  let (failed, s) ← addNode env vv newpos false false false turn.random a.state
  if failed ≠ 0 then
    .ok ⟨s, vv :: a.unassigned⟩
  else if ¬0 ≤ s.score then
    .error .assertion
  else if turn.accepttrans then
    .ok ⟨s, a.unassigned⟩
  else
    rejectMove env turn vv oldassigned oldpos ⟨s, a.unassigned⟩

/-- One turn of the inner loop of `anneal`. -/
def annealTurn (env : Env R) (vnodeTypeTable : VVertex → List Nat) (a : Annealing R) (turn : Turn) :
    Except Fault (Annealing R) := do
  let (vv, unassigned) ← pickVnode env turn a
  let oldassigned := (a.state.vnode vv).assigned
  let oldpos := (a.state.vnode vv).assignment
  let s ← pickType env turn vv a.state
  let newpnode ← pickPnode env vnodeTypeTable turn vv s
  -- now the vnode can be freed
  let s ← (if oldassigned then removeNode env vv s else .ok s)
  match newpnode with
  | none => freeOther env turn ⟨s, vv :: unassigned⟩
  | some newpos => tryMove env turn vv oldassigned oldpos newpos ⟨s, unassigned⟩

/-- What the loop starts with: all vnodes are pushed to the front of the list. -/
def annealStart (env : Env R) : Annealing R where
  state := initScore env (State.parsed env)
  unassigned := env.vg.vertices.reverse

end Emulab.Assign
