import Emulab.Lib.PrefixTree
import Emulab.Dijkstra.SingleSource

/-! # Printing the routes of a host

  There are three ways of printing a table. Without compression every
  address of every other host gets a route of its own. The tree compressors
  collect the addresses of each private network in a prefix tree and print
  routes to subnets: one chooses the first hop of a subnet by a vote, the
  other by intersecting the sets of the two halves.
-/

namespace Emulab

namespace Dijkstra

inductive DestType where
  | host
  | net
  deriving DecidableEq, Repr

structure Route where
  dest : IPAddress
  destType : DestType
  destMask : IPAddress
  nextHop : IPAddress
  cost : Nat
  src : IPAddress
  deriving DecidableEq, Repr

def printRouteToIp (sourceIp firstHopIp destIp : IPAddress) (cost : Nat) : List Route :=
  if destIp ≠ firstHopIp then [⟨destIp, .host, BitVec.allOnes 32, firstHopIp, cost, sourceIp⟩]
  else []

def printRouteToSubnet (sourceIp firstHopIp destSubnet : IPAddress) (netMaskSize cost : Nat) : List Route :=
  if netMaskSize = 32 then printRouteToIp sourceIp firstHopIp destSubnet cost
  else
    let netMask := if netMaskSize = 0 then 0 else BitVec.allOnes 32 <<< (32 - netMaskSize)
    [⟨destSubnet, .net, netMask, firstHopIp, cost, sourceIp⟩]

/-! ## No compression -/

namespace NoneCompressor

def calculateSourceInfo (source dest : Host) (graph : SingleSource) (ip : HostHostToIpMap) :
    Except Exception (IPAddress × IPAddress) :=
  match (ip.entry source).find (graph.getFirstHop dest) with
  | none => .error (.routeNotFound source dest (graph.getFirstHop dest))
  | some sourcePos => .ok sourcePos

/-- The loop over the addresses of a host. What repeats the address before is left out. -/
def printDestIps (sourceIp firstHopIp : IPAddress) (cost : Nat) : Option IPAddress → HostEntry → List Route
  | _, [] => []
  | previous, pos :: rest =>
    let destIp := pos.2.1
    if some destIp ≠ previous then
      printRouteToIp sourceIp firstHopIp destIp cost ++ printDestIps sourceIp firstHopIp cost (some destIp) rest
    else printDestIps sourceIp firstHopIp cost previous rest

def printRoutesToHost (source dest : Host) (graph : SingleSource) (ip : HostHostToIpMap) :
    Except Exception (List Route) := do
  let (sourceIp, firstHopIp) ← calculateSourceInfo source dest graph ip
  return printDestIps sourceIp firstHopIp (graph.getDistance dest) none (ip.entry dest)

def printRoutes (graph : SingleSource) (ip : HostHostToIpMap) : Except Exception (List Route) := do
  let routes ← ((List.range graph.vertexCount).filter (· ≠ graph.source)).mapM
    fun i => printRoutesToHost graph.source i graph ip
  return routes.flatten

end NoneCompressor

/-! ## Trees of addresses -/

/-- What the two kinds of trees have in common. -/
structure IpTree (T : Type) where
  reset : T
  addRoute : IPAddress → Host → Nat → T → T
  printRoutes : HostHostToIpMap → Host → IPAddress → T → Except Exception (List Route)

namespace VoteIpTree

/-- A node counts how often it was passed for each first hop. The hops are sorted. -/
structure Node where
  m_childHops : List (Host × Nat)
  m_depth : Nat
  deriving DecidableEq, Repr

def Node.new : Node := ⟨[], 0⟩

/-- Counting one more for a hop. -/
def increment (hop : Host) : List (Host × Nat) → List (Host × Nat)
  | [] => [(hop, 1)]
  | pos :: rest =>
    if hop < pos.1 then (hop, 1) :: pos :: rest
    else if hop = pos.1 then (pos.1, pos.2 + 1) :: rest
    else pos :: increment hop rest

def Node.passed (depth : Nat) (hop : Host) (node : Node) : Node :=
  ⟨increment hop node.m_childHops, depth⟩

/-- Adds an address below a node, with as many bits left as the node is above the leaves. -/
def addRouteAt (ip : IPAddress) (newFirstHop : Host) : Nat → PrefixTree Node → PrefixTree Node
  | 0, t => .node ((t.dataD Node.new).passed IP_SIZE newFirstHop) t.zero t.one
  | left + 1, t =>
    let bit := ip.getLsbD left
    .node ((t.dataD Node.new).passed (IP_SIZE - (left + 1)) newFirstHop)
      (if bit then t.zero else addRouteAt ip newFirstHop left t.zero)
      (if bit then addRouteAt ip newFirstHop left t.one else t.one)

/-- The hop with the highest count, the first of them. -/
def findMostPos (mostPos : Host × Nat) : List (Host × Nat) → Host × Nat
  | [] => mostPos
  | pos :: rest => if pos.2 > mostPos.2 then findMostPos pos rest else findMostPos mostPos rest

def printRoutesBelow (ip : HostHostToIpMap) (source : Host) :
    Host → IPAddress → PrefixTree Node → Except Exception (List Route)
  | _, _, .null => .ok []
  | parentFirstHop, subnet, .node node zero one =>
    match node.m_childHops with
    | [] => .ok []
    | first :: rest => do
      let most := (findMostPos first rest).1
      let own ←
        if most ≠ parentFirstHop then
          match (ip.entry source).find most with
          | some pos => pure (printRouteToSubnet pos.1 pos.2 (subnet <<< (IP_SIZE - node.m_depth)) node.m_depth 1)
          | none => throw (.string "Internal error: Corruption in data structures: Compressor::add()")
        else pure []
      let routes0 ← printRoutesBelow ip source most (subnet <<< 1) zero
      let routes1 ← printRoutesBelow ip source most ((subnet <<< 1) + 1) one
      return own ++ routes0 ++ routes1

end VoteIpTree

def VoteIpTree : IpTree (PrefixTree VoteIpTree.Node) where
  reset := .node VoteIpTree.Node.new .null .null
  addRoute ip newFirstHop depth := VoteIpTree.addRouteAt ip newFirstHop (IP_SIZE - depth)
  printRoutes ip source subnet := VoteIpTree.printRoutesBelow ip source INT_MAX subnet

namespace OptimalIpTree

/-- A node has the set of the first hops that are best for it. The set is sorted. -/
structure Node where
  m_depth : Nat
  m_firstHops : List Host
  deriving DecidableEq, Repr

def Node.new : Node := ⟨0, []⟩

def addRouteAt (ip : IPAddress) (newFirstHop : Host) : Nat → PrefixTree Node → PrefixTree Node
  | 0, t => .node ⟨IP_SIZE, [newFirstHop]⟩ t.zero t.one
  | left + 1, t =>
    let bit := ip.getLsbD left
    .node { t.dataD Node.new with m_depth := IP_SIZE - (left + 1) }
      (if bit then t.zero else addRouteAt ip newFirstHop left t.zero)
      (if bit then addRouteAt ip newFirstHop left t.one else t.one)

/-- In which of two sets a value is found. -/
inductive SET where
  | firstSet
  | secondSet
  | bothSets
  deriving DecidableEq, Repr

/-- Walks two sorted sets at once, by a bound on the steps. -/
def setIterator : Nat → List Host → List Host → List (Host × SET)
  | 0, _, _ => []
  | _, [], [] => []
  | n + 1, [], second :: rest => (second, .secondSet) :: setIterator n [] rest
  | n + 1, first :: rest, [] => (first, .firstSet) :: setIterator n rest []
  | n + 1, first :: rest, second :: rest' =>
    if first < second then (first, .firstSet) :: setIterator n rest (second :: rest')
    else if second < first then (second, .secondSet) :: setIterator n (first :: rest) rest'
    else (second, .bothSets) :: setIterator n rest rest'

def intersectionOrUnion (left right : List Host) : List Host :=
  let walk := setIterator (left.length + right.length) left right
  if walk.any (fun pos => pos.2 = .bothSets) then
    (walk.filter (fun pos => pos.2 = .bothSets)).map Prod.fst
  else walk.map Prod.fst

/-- Takes the sets of the children together, from the leaves up. -/
def joinSets : PrefixTree Node → PrefixTree Node
  | .null => .null
  | .node node zero one =>
    let zero := joinSets zero
    let one := joinSets one
    let m_firstHops :=
      match zero, one with
      | .node left _ _, .node right _ _ => intersectionOrUnion left.m_firstHops right.m_firstHops
      | .node left _ _, .null => left.m_firstHops
      | .null, .node right _ _ => right.m_firstHops
      | .null, .null => node.m_firstHops
    .node { node with m_firstHops := m_firstHops } zero one

/-- The route to a subnet by a hop, if the hop is a neighbour. -/
def printRoute (ip : HostHostToIpMap) (source firstHop : Host) (subnet : IPAddress) (depth : Nat) : List Route :=
  match (ip.entry source).find firstHop with
  | some pos => printRouteToSubnet pos.1 pos.2 (subnet <<< (IP_SIZE - depth)) depth 1
  | none => []

def printRoutesBelow (ip : HostHostToIpMap) (source : Host) : Host → IPAddress → PrefixTree Node → List Route
  | _, _, .null => []
  | firstHop, subnet, .node node zero one =>
    let known := node.m_firstHops.contains firstHop
    let hop := if known then firstHop else node.m_firstHops.headD 0
    (if known then [] else printRoute ip source hop subnet node.m_depth) ++
      printRoutesBelow ip source hop (subnet <<< 1) zero ++
      printRoutesBelow ip source hop ((subnet <<< 1) + 1) one

def printRoutes (ip : HostHostToIpMap) (source : Host) (subnet : IPAddress) (t : PrefixTree Node) : List Route :=
  if t.zero ≠ .null ∨ t.one ≠ .null then
    let t := joinSets t
    let firstHop := (t.dataD Node.new).m_firstHops.headD 0
    printRoute ip source firstHop subnet (t.dataD Node.new).m_depth ++ printRoutesBelow ip source firstHop subnet t
  else []

end OptimalIpTree

def OptimalIpTree : IpTree (PrefixTree OptimalIpTree.Node) where
  reset := .node OptimalIpTree.Node.new .null .null
  addRoute ip newFirstHop depth := OptimalIpTree.addRouteAt ip newFirstHop (IP_SIZE - depth)
  printRoutes ip source subnet t := .ok (OptimalIpTree.printRoutes ip source subnet t)

/-! ## Compression by trees -/

inductive PrivateSubnet where
  | SUB_10
  | SUB_172_16
  | SUB_192_168
  deriving DecidableEq, Repr

def PrivateSubnet.shift : PrivateSubnet → Nat
  | SUB_10 => IP_SIZE - 8
  | SUB_172_16 => IP_SIZE - 12
  | SUB_192_168 => IP_SIZE - 16

/-- The number that the addresses of the network begin with. -/
def PrivateSubnet.number : PrivateSubnet → IPAddress
  | SUB_10 => 10
  | SUB_172_16 => (172 <<< 8) + 16
  | SUB_192_168 => (192 <<< 8) + 168

def PrivateSubnet.all : List PrivateSubnet := [SUB_10, SUB_172_16, SUB_192_168]

def whichSubnet (destIp : IPAddress) : Option PrivateSubnet :=
  PrivateSubnet.all.find? fun i => destIp >>> i.shift = i.number

namespace TreeCompressor

variable {T : Type} (tree : IpTree T)

/-- What is printed so far, and the trees. -/
structure State (T : Type) where
  printed : List Route
  root : PrivateSubnet → T

def add (graph : SingleSource) (ipMap : HostHostToIpMap) (dest : Host) (destIp : IPAddress)
    (st : State T) : State T :=
  let firstHop := graph.getFirstHop dest
  match (ipMap.entry graph.source).find firstHop with
  | none => st
  | some pos =>
    match whichSubnet destIp with
    | none => { st with printed := st.printed ++ printRouteToIp pos.1 pos.2 destIp 1 }
    | some subnet =>
      let root := tree.addRoute destIp firstHop (IP_SIZE - subnet.shift) (st.root subnet)
      { st with root := Function.update st.root subnet root }

/-- The addresses that the source reaches without a route. -/
def implicitIp (graph : SingleSource) (ipMap : HostHostToIpMap) : List IPAddress :=
  (ipMap.entry graph.source).map (·.2.2)

/-- The addresses that are added, each with its host. -/
def explicitIps (graph : SingleSource) (ipMap : HostHostToIpMap) : List (Host × IPAddress) :=
  ((List.range graph.vertexCount).filter (· ≠ graph.source)).flatMap fun dest =>
    (((ipMap.entry dest).map (·.2.1)).filter (· ∉ implicitIp graph ipMap)).map (dest, ·)

def printRoutes (graph : SingleSource) (ipMap : HostHostToIpMap) : Except Exception (List Route) := do
  let st := (explicitIps graph ipMap).foldl (fun st e => add tree graph ipMap e.1 e.2 st) ⟨[], fun _ => tree.reset⟩
  let routes ← PrivateSubnet.all.mapM fun loop =>
    tree.printRoutes ipMap graph.source loop.number (st.root loop)
  return st.printed ++ routes.flatten

end TreeCompressor

/-! ## The program -/

/-- The option `--compress`. -/
inductive Compress where
  | none
  | vote
  | optimal
  deriving DecidableEq, Repr

def Compress.printRoutes : Compress → SingleSource → HostHostToIpMap → Except Exception (List Route)
  | none => NoneCompressor.printRoutes
  | vote => TreeCompressor.printRoutes VoteIpTree
  | optimal => TreeCompressor.printRoutes OptimalIpTree

/-- The options: whether there is one source or all are run, and the compressor. -/
structure Arg where
  source : Option String
  compress : Compress
  deriving DecidableEq, Repr

/-- What is printed for one source. -/
structure Section where
  header : Option String
  routes : List Route
  deriving DecidableEq, Repr

variable (dijkstra_shortest_paths : Graph → Host → Paths)

def printAllRoutes (arg : Arg) (input : Input) : Except Exception (List Section) :=
  match arg.source with
  | none =>
    (List.range input.graph.vertexCount).mapM fun i => do
      let graph ← route dijkstra_shortest_paths input.graph i
      let routes ← arg.compress.printRoutes graph input.ip
      return ⟨some (input.nameToIndex.getD i ""), routes⟩
  | some source =>
    match input.nameToIndex.idxOf? source with
    | none => .error (.invalidSource source)
    | some sourcePos => do
      let graph ← route dijkstra_shortest_paths input.graph sourcePos
      let routes ← arg.compress.printRoutes graph input.ip
      return [⟨none, routes⟩]

/-- The label of a number, for an error message. -/
def reverseMap (index : Host) (nameToIndex : List String) : String :=
  nameToIndex.getD index ("[ERROR-IN-ERROR: reverse mapping failed: index=" ++ toString index ++ "]")

def setMessage (newSource newDest newFirstHop : String) : String :=
  "Route not found: source=" ++ newSource ++ " dest=" ++ newDest ++ " firstHop=" ++ newFirstHop

def Exception.what (nameToIndex : List String) : Exception → String
  | tooManyHosts maxHostCount => "You said that there would only be " ++ toString maxHostCount ++
      " hosts. I just found host #" ++ toString (maxHostCount + 1) ++ "."
  | invalidSource sourceName => "Invalid source argument: source=" ++ sourceName
  | routeNotFound source dest firstHop => setMessage (reverseMap source nameToIndex)
      (reverseMap dest nameToIndex) (reverseMap firstHop nameToIndex)
  | string error => error
  | diverges => ""

def execute (arg : Arg) (numVertices : Nat) (lines : List Line) : Except String (List Section) :=
  match inputEdges numVertices lines with
  | .error error => .error (error.what [])
  | .ok input =>
    match printAllRoutes dijkstra_shortest_paths arg input with
    | .error error => .error (error.what input.nameToIndex)
    | .ok sections => .ok sections

end Dijkstra

end Emulab
