import Emulab.Assign.State

/-! # Scoring links

  A vlink is mapped onto plinks. `score_link` and `unscore_link` account for
  its use of one plink, `score_link_info` and `unscore_link_info` for all that
  depends on how it is mapped.
-/

namespace Emulab.Assign

variable {R : Type} [Double R]

/-! ## Section 1: One plink -/

/-- The `floor` of the source is taken of a quotient of integers. -/
def multiple (bw maxBw : Int) : Int := (bw - 1).tdiv maxBw

/-- `old_over_bw` and `new_over_bw`. -/
def overBw (bwUsed maxBw : Int) : Int := if maxBw < bwUsed then bwUsed - maxBw else 0

/-- The account for the users of a plink in `score_link`. -/
def scoreLinkUsers (env : Env R) (pe : PEdge) (ve : VEdge) (s : State R) : State R :=
  let emulated := (env.vg.vlink ve).emulated
  let s :=
    if emulated then
      (s.setPlink pe fun p => { p with emulated := p.emulated + 1 }).sadd env.score.emulatedLink
    else
      s.setPlink pe fun p => { p with nonemulated := p.nonemulated + 1 }
  let p := s.plink pe
  if p.nonemulated + p.emulated = 1 then
    -- new link
    s.sadd env.score.directLink
  else
    let s :=
      if (!emulated ∧ p.nonemulated = 1) ∨ (emulated ∧ p.emulated = 1) then
        let s := s.sadd env.score.directLinkPenalty
        { s with
          vinfo := { s.vinfo with linkUsers := s.vinfo.linkUsers + 1 }
          violated := s.violated + 1 }
      else
        s
    if !emulated ∧ 1 < p.nonemulated then
      let s := s.sadd env.score.directLinkPenalty
      { s with
        vinfo := { s.vinfo with linkUsers := s.vinfo.linkUsers + 1 }
        violated := s.violated + 1 }
    else
      s

/-- The pair of endpoints of a vlink, in the order of the addresses of the names. -/
def nodePair (env : Env R) (srcPnode dstPnode : PVertex) : NodePair :=
  let src := (env.pg.pnode srcPnode).name
  let dst := (env.pg.pnode dstPnode).name
  if env.strLt src dst then (src, dst) else (dst, src)

/-- `vedge_counts[p]`. -/
def vedgeCount (counts : List (NodePair × Int)) (p : NodePair) : Int := (counts.lookup p).getD 0

/-- `vedge_counts[p] = n` -/
def setVedgeCount (counts : List (NodePair × Int)) (p : NodePair) (n : Int) : List (NodePair × Int) :=
  (p, n) :: counts.filter (·.1 ≠ p)

/-- The account for the endpoints of a plink in `score_link`. -/
def scoreLinkEndpoints (env : Env R) (pe : PEdge) (srcPnode dstPnode : PVertex) (s : State R) : State R :=
  let p := nodePair env srcPnode dstPnode
  let counts := (s.plink pe).vedgeCounts
  let s := s.setPlink pe fun l =>
    { l with vedgeCounts := setVedgeCount counts p (vedgeCount counts p + 1) }
  let plink := s.plink pe
  if p = plink.currentEndpoints then
    s.setPlink pe fun l => { l with currentCount := l.currentCount + 1 }
  else if plink.currentCount < vedgeCount plink.vedgeCounts p then
    -- we just passed the old leader
    s.setPlink pe fun l => { l with currentEndpoints := p, currentCount := l.currentCount + 1 }
  else
    let s := s.sadd (((5 : Int) : R) * env.score.directLinkPenalty)
    { s with
      vinfo := { s.vinfo with incorrectEndpoints := s.vinfo.incorrectEndpoints + 1 }
      violated := s.violated + 1 }

/-- The account for the bandwidth of a plink in `score_link`. -/
def scoreLinkBandwidth (env : Env R) (pe : PEdge) (ve : VEdge) (s : State R) : State R :=
  let maxBw := (env.pg.plink pe).bandwidth
  let oldBw := (s.plink pe).bwUsed
  let newBw := oldBw + (s.vlink ve).bandwidth
  let s := s.setPlink pe fun l => { l with bwUsed := newBw }
  if overBw newBw maxBw ≠ 0 then
    let numViolations := multiple newBw maxBw - multiple oldBw maxBw
    let s := { s with
      violated := s.violated + numViolations
      vinfo := { s.vinfo with bandwidth := s.vinfo.bandwidth + numViolations } }
    s.sadd (env.score.outsideDelay * (((overBw newBw maxBw - overBw oldBw maxBw : Int) : R) / ((maxBw : Int) : R)))
  else
    s

def scoreLink (env : Env R) (pe : PEdge) (ve : VEdge) (srcPnode dstPnode : PVertex) (s : State R) : State R :=
  let s := if (env.pg.plink pe).isType = .normal then scoreLinkUsers env pe ve s else s
  let s := if (env.pg.plink pe).fixends then scoreLinkEndpoints env pe srcPnode dstPnode s else s
  if (env.pg.plink pe).isType ≠ .lan then scoreLinkBandwidth env pe ve s else s

/-- The account for the users of a plink in `unscore_link`. -/
def unscoreLinkUsers (env : Env R) (pe : PEdge) (ve : VEdge) (s : State R) : State R :=
  let emulated := (env.vg.vlink ve).emulated
  let s :=
    if emulated then
      (s.setPlink pe fun p => { p with emulated := p.emulated - 1 }).ssub env.score.emulatedLink
    else
      let s := s.setPlink pe fun p => { p with nonemulated := p.nonemulated - 1 }
      if 1 ≤ (s.plink pe).nonemulated then
        let s := s.ssub env.score.directLinkPenalty
        { s with
          vinfo := { s.vinfo with linkUsers := s.vinfo.linkUsers - 1 }
          violated := s.violated - 1 }
      else
        s
  let p := s.plink pe
  if p.nonemulated + p.emulated = 0 then
    -- link no longer used
    s.ssub env.score.directLink
  else if (emulated ∧ p.emulated = 0) ∨ (!emulated ∧ p.nonemulated = 0) then
    let s := s.ssub env.score.directLinkPenalty
    { s with
      vinfo := { s.vinfo with linkUsers := s.vinfo.linkUsers - 1 }
      violated := s.violated - 1 }
  else
    s

/-- The heaviest of the endpoints, as the loop of `unscore_link` finds it. -/
def highestEndpoints (counts : List (NodePair × Int)) : NodePair × Int :=
  counts.foldl (fun best entry => if best.2 < entry.2 then entry else best) (("", ""), 0)

/-- The account for the endpoints of a plink in `unscore_link`. -/
def unscoreLinkEndpoints (env : Env R) (pe : PEdge) (srcPnode dstPnode : PVertex)
    (s : State R) : Except Fault (State R) :=
  let p := nodePair env srcPnode dstPnode
  let counts := (s.plink pe).vedgeCounts
  if 0 < vedgeCount counts p then
    let newcount := vedgeCount counts p - 1
    let counts := if newcount = 0 then counts.filter (·.1 ≠ p) else setVedgeCount counts p newcount
    let s := s.setPlink pe fun l => { l with vedgeCounts := counts }
    if p = (s.plink pe).currentEndpoints then
      let highest := highestEndpoints (env.hashOrder counts)
      let s := s.setPlink pe fun l =>
        { l with currentEndpoints := highest.1, currentCount := highest.2 }
      if newcount < highest.2 then
        let s := s.ssub (((5 : Int) : R) * env.score.directLinkPenalty)
        .ok { s with
          vinfo := { s.vinfo with incorrectEndpoints := s.vinfo.incorrectEndpoints - 1 }
          violated := s.violated - 1 }
      else
        .ok s
    else
      let s := s.ssub (((5 : Int) : R) * env.score.directLinkPenalty)
      .ok { s with
        vinfo := { s.vinfo with incorrectEndpoints := s.vinfo.incorrectEndpoints - 1 }
        violated := s.violated - 1 }
  else
    .error .assertion

/-- The account for the bandwidth of a plink in `unscore_link`. -/
def unscoreLinkBandwidth (env : Env R) (pe : PEdge) (ve : VEdge) (s : State R) : State R :=
  let maxBw := (env.pg.plink pe).bandwidth
  let oldBw := (s.plink pe).bwUsed
  let newBw := oldBw - (s.vlink ve).bandwidth
  let s := s.setPlink pe fun l => { l with bwUsed := newBw }
  if overBw oldBw maxBw ≠ 0 then
    let numViolations := multiple oldBw maxBw - multiple newBw maxBw
    let s := { s with
      violated := s.violated - numViolations
      vinfo := { s.vinfo with bandwidth := s.vinfo.bandwidth - numViolations } }
    s.ssub (env.score.outsideDelay * (((overBw oldBw maxBw - overBw newBw maxBw : Int) : R) / ((maxBw : Int) : R)))
  else
    s

/-- `link_info.type_used = LINK_UNMAPPED` -/
def setUnmapped (ve : VEdge) (s : State R) : State R :=
  s.setVlink ve fun l => { l with linkInfo := { l.linkInfo with typeUsed := .unmapped } }

/-- `unscore_link`, for a vlink that is not trivial. For a trivial one it does
    `setUnmapped` only, and does not look at the plink. -/
def unscoreLink (env : Env R) (pe : PEdge) (ve : VEdge) (srcPnode dstPnode : PVertex)
    (s : State R) : Except Fault (State R) := do
  let s := if (env.pg.plink pe).isType = .normal then unscoreLinkUsers env pe ve s else s
  let s ←
    (if (env.pg.plink pe).fixends then unscoreLinkEndpoints env pe srcPnode dstPnode s else .ok s)
  let s := if (env.pg.plink pe).isType ≠ .lan then unscoreLinkBandwidth env pe ve s else s
  .ok (setUnmapped ve s)

/-! ## Section 2: Switches and trivial links -/

/-- A switch is used by a link. The bandwidth is counted into and out of it. -/
def useSwitch (env : Env R) (bandwidth : Int) (s : State R) (sw : PVertex) : State R :=
  let s := s.setPnodeLinks sw fun p => { p with switchUsedLinks := p.switchUsedLinks + 1 }
  let s := if (s.pnodeLinks sw).switchUsedLinks = 1 then s.sadd env.score.switch else s
  s.setPnodeLinks sw fun p => { p with nontrivialBwUsed := p.nontrivialBwUsed + bandwidth * 2 }

def releaseSwitch (env : Env R) (bandwidth : Int) (s : State R) (sw : PVertex) : State R :=
  let s := s.setPnodeLinks sw fun p => { p with switchUsedLinks := p.switchUsedLinks - 1 }
  let s := if (s.pnodeLinks sw).switchUsedLinks = 0 then s.ssub env.score.switch else s
  s.setPnodeLinks sw fun p => { p with nontrivialBwUsed := p.nontrivialBwUsed - bandwidth * 2 }

/-- The bandwidth of a link that leaves its pnodes. -/
def addNontrivialBw (srcPnode dstPnode : PVertex) (bandwidth : Int) (s : State R) : State R :=
  let s := s.setPnodeLinks srcPnode fun p =>
    { p with nontrivialBwUsed := p.nontrivialBwUsed + bandwidth }
  s.setPnodeLinks dstPnode fun p => { p with nontrivialBwUsed := p.nontrivialBwUsed + bandwidth }

/-- The account for the bandwidth of a trivial link in `score_link_info`. -/
def scoreTrivialBw (env : Env R) (ve : VEdge) (srcPnode dstPnode : PVertex) (s : State R) : State R :=
  let maxBw := (env.pg.pnode srcPnode).trivialBw
  if maxBw ≠ 0 then
    let oldBw := (s.pnodeLinks srcPnode).trivialBwUsed
    let bandwidth := (s.vlink ve).bandwidth
    let s := s.setPnodeLinks dstPnode fun p =>
      { p with trivialBwUsed := p.trivialBwUsed + bandwidth }
    let newBw := (s.pnodeLinks srcPnode).trivialBwUsed
    if overBw newBw maxBw ≠ 0 then
      let numViolations := newBw.tdiv maxBw - oldBw.tdiv maxBw
      let s := { s with
        violated := s.violated + numViolations
        vinfo := { s.vinfo with bandwidth := s.vinfo.bandwidth + numViolations } }
      s.sadd (env.score.trivialPenalty *
        (((overBw newBw maxBw - overBw oldBw maxBw : Int) : R) / ((maxBw : Int) : R)))
    else
      s
  else
    s

/-- The account for the bandwidth of a trivial link in `unscore_link_info`. -/
def unscoreTrivialBw (env : Env R) (ve : VEdge) (srcPnode : PVertex) (s : State R) : State R :=
  let maxBw := (env.pg.pnode srcPnode).trivialBw
  if maxBw ≠ 0 then
    let oldBw := (s.pnodeLinks srcPnode).trivialBwUsed
    let newBw := oldBw - (s.vlink ve).bandwidth
    let s := s.setPnodeLinks srcPnode fun p => { p with trivialBwUsed := newBw }
    if overBw oldBw maxBw ≠ 0 then
      let numViolations := oldBw.tdiv maxBw - newBw.tdiv maxBw
      let s := { s with
        violated := s.violated - numViolations
        vinfo := { s.vinfo with bandwidth := s.vinfo.bandwidth - numViolations } }
      s.ssub (env.score.trivialPenalty *
        (((overBw oldBw maxBw - overBw newBw maxBw : Int) : R) / ((maxBw : Int) : R)))
    else
      s
  else
    s

/-! ## Section 3: Mixing trivial and nontrivial links -/

/-- A violation if the node is not allowed to have a mix, and this is the first
    link of its kind while there are others. -/
def addMix (env : Env R) (v : VVertex) (links others : Int) (s : State R) : State R :=
  if (env.vg.vnode v).disallowTrivialMix ∧ links = 1 ∧ others ≠ 0 then
    let s := s.sadd env.score.trivialMix
    { s with
      violated := s.violated + 1
      vinfo := { s.vinfo with trivialMix := s.vinfo.trivialMix + 1 } }
  else
    s

/-- The violation is removed with the last link of the kind. -/
def removeMix (env : Env R) (v : VVertex) (links others : Int) (s : State R) : State R :=
  if (env.vg.vnode v).disallowTrivialMix ∧ links = 0 ∧ others ≠ 0 then
    let s := s.ssub env.score.trivialMix
    { s with
      violated := s.violated - 1
      vinfo := { s.vinfo with trivialMix := s.vinfo.trivialMix - 1 } }
  else
    s

/-- The account for vnodes without a mix in `score_link_info`. -/
def scoreMix (env : Env R) (typeUsed : LinkType) (srcVnode dstVnode : VVertex) (s : State R) : State R :=
  if typeUsed = .trivial then
    let s := s.setVnodeLinks srcVnode fun v => { v with trivialLinks := v.trivialLinks + 1 }
    let s := s.setVnodeLinks dstVnode fun v => { v with trivialLinks := v.trivialLinks + 1 }
    let s := addMix env srcVnode (s.vnodeLinks srcVnode).trivialLinks (s.vnodeLinks srcVnode).nontrivialLinks s
    addMix env dstVnode (s.vnodeLinks dstVnode).trivialLinks (s.vnodeLinks dstVnode).nontrivialLinks s
  else
    let s := s.setVnodeLinks srcVnode fun v => { v with nontrivialLinks := v.nontrivialLinks + 1 }
    let s := s.setVnodeLinks dstVnode fun v => { v with nontrivialLinks := v.nontrivialLinks + 1 }
    let s := addMix env srcVnode (s.vnodeLinks srcVnode).nontrivialLinks (s.vnodeLinks srcVnode).trivialLinks s
    addMix env dstVnode (s.vnodeLinks dstVnode).nontrivialLinks (s.vnodeLinks dstVnode).trivialLinks s

/-- The account for vnodes without a mix in `unscore_link_info`. -/
def unscoreMix (env : Env R) (typeUsed : LinkType) (srcVnode dstVnode : VVertex) (s : State R) : State R :=
  if typeUsed = .trivial then
    let s := s.setVnodeLinks srcVnode fun v => { v with trivialLinks := v.trivialLinks - 1 }
    let s := s.setVnodeLinks dstVnode fun v => { v with trivialLinks := v.trivialLinks - 1 }
    let s := removeMix env srcVnode (s.vnodeLinks srcVnode).trivialLinks (s.vnodeLinks srcVnode).nontrivialLinks s
    removeMix env dstVnode (s.vnodeLinks dstVnode).trivialLinks (s.vnodeLinks dstVnode).nontrivialLinks s
  else if typeUsed ≠ .unmapped then
    let s := s.setVnodeLinks srcVnode fun v => { v with nontrivialLinks := v.nontrivialLinks - 1 }
    let s := s.setVnodeLinks dstVnode fun v => { v with nontrivialLinks := v.nontrivialLinks - 1 }
    let s := removeMix env srcVnode (s.vnodeLinks srcVnode).nontrivialLinks (s.vnodeLinks srcVnode).trivialLinks s
    removeMix env dstVnode (s.vnodeLinks dstVnode).nontrivialLinks (s.vnodeLinks dstVnode).trivialLinks s
  else
    s

/-! ## Section 4: A vlink -/

/-- The adjustment of a vlink to the native speed of the interfaces. -/
def adjustBandwidth (env : Env R) (ve : VEdge) (s : State R) : Except Fault (State R) :=
  let vlink := s.vlink ve
  if (env.vg.vlink ve).adjustToNativeBandwidth ∧ vlink.linkInfo.typeUsed ≠ .trivial then
    if vlink.bandwidth = -2 then do
      let frontPlink ← front vlink.linkInfo.plinks
      let backPlink ← back vlink.linkInfo.plinks
      .ok (s.setVlink ve fun l => { l with
        bandwidth := min (env.pg.plink frontPlink).bandwidth (env.pg.plink backPlink).bandwidth })
    else
      .error .assertion
  else
    .ok s

/-- Add an amount a number of times. -/
def saddTimes (amount : R) : Nat → State R → State R
  | 0, s => s
  | n + 1, s => saddTimes amount n (s.sadd amount)

/-- Subtract an amount a number of times. -/
def ssubTimes (amount : R) : Nat → State R → State R
  | 0, s => s
  | n + 1, s => ssubTimes amount n (s.ssub amount)

/-- The account for the plinks and switches of a vlink in `score_link_info`. -/
def scoreMapping (env : Env R) (ve : VEdge) (srcPnode dstPnode : PVertex) (s : State R) : Except Fault (State R) :=
  let info := (s.vlink ve).linkInfo
  let bandwidth := (s.vlink ve).bandwidth
  match info.typeUsed with
  | .direct => do
    let s := s.sadd env.score.directLink
    let s := addNontrivialBw srcPnode dstPnode bandwidth s
    let pe ← front info.plinks
    .ok (scoreLink env pe ve srcPnode dstPnode s)
  | .intraswitch => do
    let s := s.sadd env.score.intraswitchLink
    let s := addNontrivialBw srcPnode dstPnode bandwidth s
    let first ← front info.plinks
    let s := scoreLink env first ve srcPnode dstPnode s
    let last ← back info.plinks
    let s := scoreLink env last ve srcPnode dstPnode s
    let sw ← front info.switches
    .ok (useSwitch env bandwidth s sw)
  | .interswitch =>
    let s := addNontrivialBw srcPnode dstPnode bandwidth s
    let s := info.plinks.foldl (fun s pe => scoreLink env pe ve srcPnode dstPnode s) s
    -- two of the links lead to the nodes
    let s := saddTimes env.score.interswitchLink (info.plinks.length - 2) s
    .ok (info.switches.foldl (useSwitch env bandwidth) s)
  | .trivial => .ok (scoreTrivialBw env ve srcPnode dstPnode s)
  | .unmapped => .error .exitFatal
  | .delayed => .error .exitFatal

def scoreLinkInfo (env : Env R) (ve : VEdge) (srcPnode dstPnode : PVertex)
    (srcVnode dstVnode : VVertex) (s : State R) : Except Fault (State R) := do
  let s ← adjustBandwidth env ve s
  let s ← scoreMapping env ve srcPnode dstPnode s
  .ok (scoreMix env (s.vlink ve).linkInfo.typeUsed srcVnode dstVnode s)

/-- `plinks.clear()` and `switches.clear()`. -/
def clearPath (ve : VEdge) (s : State R) : State R :=
  s.setVlink ve fun l => { l with linkInfo := { l.linkInfo with plinks := [], switches := [] } }

/-- The plinks of a path are unscored one after another. -/
def unscorePath (env : Env R) (ve : VEdge) (srcPnode dstPnode : PVertex) :
    List PEdge → State R → Except Fault (State R)
  | [], s => .ok s
  | pe :: path, s => do
    let s ← unscoreLink env pe ve srcPnode dstPnode s
    unscorePath env ve srcPnode dstPnode path s

/-- The account for the plinks and switches of a vlink in `unscore_link_info`. -/
def unscoreMapping (env : Env R) (ve : VEdge) (srcPnode dstPnode : PVertex) (s : State R) :
    Except Fault (State R) :=
  let info := (s.vlink ve).linkInfo
  let bandwidth := (s.vlink ve).bandwidth
  match info.typeUsed with
  | .direct => do
    let s := addNontrivialBw srcPnode dstPnode (-bandwidth) s
    let s := s.ssub env.score.directLink
    let pe ← front info.plinks
    let s ← unscoreLink env pe ve srcPnode dstPnode s
    .ok (s.setVlink ve fun l => { l with linkInfo := { l.linkInfo with plinks := [] } })
  | .interswitch => do
    let s := addNontrivialBw srcPnode dstPnode (-bandwidth) s
    let s ← unscorePath env ve srcPnode dstPnode info.plinks s
    let s := ssubTimes env.score.interswitchLink (info.plinks.length - 2) s
    let s := info.switches.foldl (releaseSwitch env bandwidth) s
    .ok (clearPath ve s)
  | .intraswitch => do
    let s := addNontrivialBw srcPnode dstPnode (-bandwidth) s
    let s := s.ssub env.score.intraswitchLink
    let first ← front info.plinks
    let s ← unscoreLink env first ve srcPnode dstPnode s
    let last ← back info.plinks
    let s ← unscoreLink env last ve srcPnode dstPnode s
    let sw ← front info.switches
    let s := releaseSwitch env bandwidth s sw
    .ok (clearPath ve s)
  | .trivial => .ok (setUnmapped ve (unscoreTrivialBw env ve srcPnode s))
  | .unmapped => .ok s
  | .delayed => .ok s

def unscoreLinkInfo (env : Env R) (ve : VEdge) (srcPnode dstPnode : PVertex)
    (srcVnode dstVnode : VVertex) (s : State R) : Except Fault (State R) := do
  let s := unscoreMix env (s.vlink ve).linkInfo.typeUsed srcVnode dstVnode s
  let s ← unscoreMapping env ve srcPnode dstPnode s
  -- a sentinel value, to detect problems at the next `score_link_info`
  if (env.vg.vlink ve).adjustToNativeBandwidth then
    .ok (s.setVlink ve fun l => { l with bandwidth := -2 })
  else
    .ok s

/-! ## Section 5: Marks -/

def markVlinkUnassigned (env : Env R) (ve : VEdge) (s : State R) : Except Fault (State R) :=
  if !(s.vlink ve).noConnection then
    let s := s.sadd env.score.noConnection
    let s := s.setVlink ve fun l => { l with
      noConnection := true
      linkInfo := { l.linkInfo with typeUsed := .unmapped } }
    .ok { s with
      vinfo := { s.vinfo with noConnection := s.vinfo.noConnection + 1 }
      violated := s.violated + 1 }
  else
    .error .markVlinkUnassigned

def markVlinkAssigned (env : Env R) (ve : VEdge) (s : State R) : Except Fault (State R) :=
  if (s.vlink ve).noConnection then
    let s := s.ssub env.score.noConnection
    let s := s.setVlink ve fun l => { l with noConnection := false }
    .ok { s with
      vinfo := { s.vinfo with noConnection := s.vinfo.noConnection - 1 }
      violated := s.violated - 1 }
  else
    .error .markVlinkAssigned

end Emulab.Assign
