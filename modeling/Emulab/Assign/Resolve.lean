import Emulab.Assign.ScoreLink

/-! # Resolving links

  When both ends of a vlink are assigned it is mapped: the possible
  resolutions are listed with their weights, and one of them is taken.
-/

namespace Emulab.Assign

variable {R : Type} [Double R]

/-! ## Section 1: The best link between two pnodes -/

/-- The interfaces of a plink that are not the ones that the vlink is fixed to. -/
def ifaceMismatch (env : Env R) (s : State R) (ve : VEdge) (pe : PEdge)
    (checkSrcIface checkDstIface : Bool) : Bool :=
  let vlink := env.vg.vlink ve
  let plink := env.pg.plink pe
  let srcPnode := env.pg.pnode (s.vnode vlink.src).assignment
  let plinkOrderReversed := srcPnode.name ≠ plink.srcnode
  let srcIface := if plinkOrderReversed then plink.dstiface else plink.srciface
  let dstIface := if plinkOrderReversed then plink.srciface else plink.dstiface
  (vlink.fixSrcIface && checkSrcIface && vlink.srcIface ≠ srcIface) ||
    (vlink.fixDstIface && checkDstIface && vlink.dstIface ≠ dstIface)

/-- The loop of `find_best_link`, with the best pedge so far and its users. -/
def findBestLinkLoop (env : Env R) (s : State R) (switchPv pv : PVertex) (ve : VEdge)
    (checkSrcIface checkDstIface : Bool) : List PEdge → Option PEdge → Int → Option PEdge × Int
  | [], best, bestUsers => (best, bestUsers)
  | pe :: pes, best, bestUsers =>
    let next := findBestLinkLoop env s switchPv pv ve checkSrcIface checkDstIface pes
    let vlink := env.vg.vlink ve
    let plink := env.pg.plink pe
    let used := s.plink pe
    if env.pg.otherEnd pv pe ≠ switchPv then
      next best bestUsers
    else if vlink.type ∉ plink.types then
      next best bestUsers
    else if ifaceMismatch env s ve pe checkSrcIface checkDstIface then
      next best bestUsers
    else if vlink.emulated then
      -- bin packing by first fit
      if 0 < used.nonemulated then
        next best bestUsers
      else if (s.vlink ve).bandwidth ≤ plink.bandwidth - used.bwUsed then
        (some pe, bestUsers)
      else
        next best bestUsers
    else
      let users := used.nonemulated + used.emulated
      if users < bestUsers ∧ (vlink.adjustToNativeBandwidth ∨ (s.vlink ve).bandwidth ≤ plink.bandwidth) then
        next (some pe) (used.emulated + used.nonemulated)
      else
        next best bestUsers

def findBestLink (env : Env R) (s : State R) (pv switchPv : PVertex) (ve : VEdge)
    (checkSrcIface checkDstIface : Bool) : Option PEdge :=
  let found := findBestLinkLoop env s switchPv pv ve checkSrcIface checkDstIface (env.pg.outEdges pv) none 1000
  if !(env.vg.vlink ve).emulated ∧ 0 < found.2 then none else found.1

/-! ## Section 2: Paths through the switch fabric -/

/-- The loop of `find_interswitch_path`: the path is followed back from its end. -/
def interswitchLoop (pg : PGraph R) (srcPv : PVertex) :
    Nat → PVertex → List PEdge → List PVertex → Except Fault (List PEdge × List PVertex)
  | fuel, current, path, switches =>
    if current = srcPv then
      .ok (path, current :: switches)
    else
      match fuel with
      | 0 => .error .endless
      | fuel + 1 =>
        let pred := pg.switchPreds srcPv current
        match pg.slink current pred with
        | none => .error .undefined
        | some pe => interswitchLoop pg srcPv fuel pred (path ++ [pe]) (current :: switches)

/-- `find_interswitch_path`: the links and switches of the path, if there is one. -/
def findInterswitchPath (pg : PGraph R) (srcPv destPv : PVertex) :
    Except Fault (Option (List PEdge × List PVertex)) :=
  if pg.switchPreds srcPv destPv = destPv then
    -- unreachable
    .ok none
  else
    (interswitchLoop pg srcPv pg.numSwitches destPv [] []).map some

/-! ## Section 3: The resolutions of a link -/

/-- `LINK_RESOLVE_DIRECT`, `LINK_RESOLVE_INTRASWITCH` and `LINK_RESOLVE_INTERSWITCH`. -/
def linkResolve : LinkType → Nat
  | .direct => 4
  | .intraswitch => 2
  | .interswitch => 1
  | _ => 0

def directResolutions (env : Env R) (s : State R) (pv destPv : PVertex) (ve : VEdge) : List LinkInfo :=
  match findBestLink env s destPv pv ve true true with
  | some pe => [⟨.direct, [pe], []⟩]
  | none => []

/-- The links of a resolution in the order of the vlink. -/
def inOrder (flipped : Bool) (first second : List PEdge) : List PEdge :=
  if flipped then second ++ first else first ++ second

/-- The link from a node to a switch, if one is needed: `none` means that there is none to be had. -/
def endLink (env : Env R) (s : State R) (needed : Bool) (pv sw : PVertex) (ve : VEdge)
    (checkSrcIface checkDstIface : Bool) : Option (List PEdge) :=
  if needed then
    (findBestLink env s pv sw ve checkSrcIface checkDstIface).map ([·])
  else
    some []

/-- A turn of the loop over the switches that both pnodes are attached to. -/
def intraswitchResolution (env : Env R) (s : State R) (pv destPv : PVertex) (ve : VEdge)
    (flipped : Bool) (sw : PVertex) : List LinkInfo :=
  if sw ∉ (env.pg.pnode destPv).switches then
    []
  else if (env.pg.pnode pv).isSwitch || (env.pg.pnode destPv).isSwitch then
    -- they are caught as direct links
    []
  else
    match endLink env s (pv ≠ sw) pv sw ve (!flipped) flipped with
    | none => []
    | some first =>
      match endLink env s (destPv ≠ sw) destPv sw ve flipped (!flipped) with
      | none => []
      | some second => [⟨.intraswitch, inOrder flipped first second, [sw]⟩]

/-- What the vlink is matched to if its bandwidth is the native one: there is to be an
    interface at one end. -/
def nativeInterface (env : Env R) (ve : VEdge) (first second : List PEdge) : Except Fault Unit :=
  if (env.vg.vlink ve).adjustToNativeBandwidth ∧ first = [] ∧ second = [] then
    .error .nullPointer
  else
    .ok ()

/-- A turn of the loops over pairs of switches. -/
def interswitchResolution (env : Env R) (s : State R) (pv destPv : PVertex) (ve : VEdge)
    (flipped : Bool) (sourceSwitch destSwitch : PVertex) : Except Fault (List LinkInfo) :=
  if sourceSwitch = destSwitch then
    .ok []
  else
    let firstLink := pv ≠ sourceSwitch ∧ pv ≠ destSwitch
    let secondLink := destPv ≠ sourceSwitch ∧ destPv ≠ destSwitch
    match endLink env s firstLink pv sourceSwitch ve (!flipped) flipped with
    | none => .ok []
    | some first =>
      match endLink env s secondLink destPv destSwitch ve flipped (!flipped) with
      | none => .ok []
      | some second => do
        nativeInterface env ve first second
        match ← findInterswitchPath env.pg sourceSwitch destSwitch with
        | none => .ok []
        | some (path, switches) =>
          let plinks := if flipped then second ++ path ++ first else first ++ path ++ second
          .ok [⟨.interswitch, plinks, switches⟩]

/-- The loops over pairs of switches. -/
def interswitchResolutions (env : Env R) (s : State R) (pv destPv : PVertex) (ve : VEdge)
    (flipped : Bool) : Except Fault (List LinkInfo) := do
  if (env.vg.vlink ve).allowInterswitch then
    let found ← ((env.pg.pnode pv).switches.product (env.pg.pnode destPv).switches).mapM
      fun sws => interswitchResolution env s pv destPv ve flipped sws.1 sws.2
    .ok found.flatten
  else
    .ok []

/-- `find_link_resolutions`, for two different pnodes. -/
def findLinkResolutions (env : Env R) (s : State R) (pv destPv : PVertex) (ve : VEdge)
    (flipped : Bool) : Except Fault (List LinkInfo) := do
  let direct := directResolutions env s pv destPv ve
  let intraswitch := (env.pg.pnode pv).switches.flatMap (intraswitchResolution env s pv destPv ve flipped)
  let interswitch ← interswitchResolutions env s pv destPv ve flipped
  .ok (direct ++ intraswitch ++ interswitch)

def totalWeight (resolutions : List LinkInfo) : Nat :=
  (resolutions.map fun info => linkResolve info.typeUsed).sum

/-! ## Section 4: Choosing a resolution -/

/-- The random choice: the weights are taken off until it is negative. -/
def chooseRandom : List LinkInfo → Nat → Option LinkInfo
  | [], _ => none
  | info :: infos, choice =>
    if choice < linkResolve info.typeUsed then some info
    else chooseRandom infos (choice - linkResolve info.typeUsed)

/-- The best resolution so far, with its score and violations. -/
structure BestResolution (R : Type) where
  best : Option LinkInfo
  score : R
  violated : Int

/-- `vlink->link_info = info` -/
def setLinkInfo (ve : VEdge) (info : LinkInfo) (s : State R) : State R :=
  s.setVlink ve fun l => { l with linkInfo := info }

/-- The ends of a vlink that is resolved. -/
structure LinkEnds where
  pnode : PVertex
  destPnode : PVertex
  vnode : VVertex
  destVnode : VVertex

/-- The loop that tries all possibilities. -/
def tryResolutions (env : Env R) (ve : VEdge) (ends : LinkEnds) :
    List LinkInfo → BestResolution R → State R → Except Fault (BestResolution R × State R)
  | [], best, s => .ok (best, s)
  | info :: infos, best, s => do
    let s := setLinkInfo ve info s
    let s ← scoreLinkInfo env ve ends.pnode ends.destPnode ends.vnode ends.destVnode s
    let best :=
      if s.score ≤ best.score ∧ s.violated ≤ best.violated then
        { best := some info, score := s.score, violated := s.violated }
      else
        best
    let s ← unscoreLinkInfo env ve ends.pnode ends.destPnode ends.vnode ends.destVnode s
    tryResolutions env ve ends infos best s

/-- The resolution that is taken: at random by the weights, or the one with the best score. -/
def chooseResolution (env : Env R) (ve : VEdge) (ends : LinkEnds) (deterministic : Bool)
    (random : Nat) (resolutions : List LinkInfo) (s : State R) :
    Except Fault (LinkInfo × State R) :=
  if !deterministic && !env.opts.greedyLinkAssignment then
    match chooseRandom resolutions (random % totalWeight resolutions) with
    | some info => .ok (info, s)
    | none => .error .undefined
  else do
    let (best, s) ← tryResolutions env ve ends resolutions ⟨none, ((10000 : Int) : R), 10000⟩ s
    match best.best with
    | some info => .ok (info, s)
    -- the index of the best one has not been set
    | none => .error .undefined

/-! ## Section 5: Resolving the links of a node -/

/-- `resolve_link`, where both ends are on one pnode. -/
def resolveTrivial (env : Env R) (ve : VEdge) (ends : LinkEnds) (s : State R) : Except Fault (State R) := do
  if env.opts.allowTrivialLinks ∧ (env.vg.vlink ve).allowTrivial then
    let s := s.setVlink ve fun l => { l with linkInfo := { l.linkInfo with typeUsed := .trivial } }
    let s ← (if (s.vlink ve).noConnection then markVlinkAssigned env ve s else .ok s)
    scoreLinkInfo env ve ends.pnode ends.destPnode ends.vnode ends.destVnode s
  else
    if !(s.vlink ve).noConnection then markVlinkUnassigned env ve s else .ok s

/-- `resolve_link`, where the ends are on two pnodes. -/
def resolveNontrivial (env : Env R) (ve : VEdge) (ends : LinkEnds) (flipped deterministic : Bool)
    (random : Nat) (s : State R) : Except Fault (State R) := do
  let resolutions ← findLinkResolutions env s ends.pnode ends.destPnode ve flipped
  if resolutions = [] then
    if !(s.vlink ve).noConnection then markVlinkUnassigned env ve s else .ok s
  else
    let (info, s) ← chooseResolution env ve ends deterministic random resolutions s
    let s := setLinkInfo ve info s
    let s ← scoreLinkInfo env ve ends.pnode ends.destPnode ends.vnode ends.destVnode s
    if (s.vlink ve).noConnection then markVlinkAssigned env ve s else .ok s

def resolveLink (env : Env R) (vv : VVertex) (pv : PVertex) (deterministic : Bool)
    (random : Nat) (ve : VEdge) (s : State R) : Except Fault (State R) :=
  let destVv := env.vg.otherEnd vv ve
  let flipped := (env.vg.vlink ve).src ≠ vv
  if flipped ∧ (env.vg.vlink ve).dst ≠ vv then
    .error .assertion
  else if (s.vnode destVv).assigned then
    let destPv := (s.vnode destVv).assignment
    let ends : LinkEnds := ⟨pv, destPv, vv, destVv⟩
    if destPv = pv then resolveTrivial env ve ends s
    else resolveNontrivial env ve ends flipped deterministic random s
  else
    .ok s

/-- The loop of `resolve_links`: a loopback link is seen twice. -/
def resolveLinksLoop (env : Env R) (vv : VVertex) (pv : PVertex) (deterministic : Bool)
    (random : VEdge → Nat) : List VEdge → List VEdge → State R → Except Fault (State R)
  | [], _, s => .ok s
  | ve :: ves, seen, s =>
    if ve ∈ seen then
      resolveLinksLoop env vv pv deterministic random ves seen s
    else do
      let s ← resolveLink env vv pv deterministic (random ve) ve s
      resolveLinksLoop env vv pv deterministic random ves (ve :: seen) s

/-- `resolve_links`. What `RANDOM` returns for a link is a parameter. -/
def resolveLinks (env : Env R) (vv : VVertex) (pv : PVertex) (deterministic : Bool)
    (random : VEdge → Nat) (s : State R) : Except Fault (State R) :=
  resolveLinksLoop env vv pv deterministic random (env.vg.outEdges vv) [] s

end Emulab.Assign
