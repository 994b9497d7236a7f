import Emulab.Lib.ShortestPath

/-! # Topologies and single-source routes

  The route calculator reads a list of links, numbers the hosts in the order
  in which they are named, and keeps for every host the addresses at both
  ends of its links. For one source at a time it has the shortest paths
  calculated and reads the first hops off the predecessors. The shortest
  paths themselves are calculated by a library, which is a parameter here.
-/

namespace Emulab

namespace Dijkstra

/-- An `unsigned int`. -/
abbrev IPAddress : Type := BitVec 32

def IP_SIZE : Nat := 32

def INT_MAX : Nat := 2147483647

abbrev Host : Type := Nat

/-- A line of the input: two interfaces that are linked, and the weight of the link. -/
structure Line where
  firstHost : String
  firstIp : IPAddress
  secondHost : String
  secondIp : IPAddress
  weight : Nat
  deriving DecidableEq, Repr

inductive Exception where
  | tooManyHosts (maxHostCount : Nat)
  | invalidSource (sourceName : String)
  | routeNotFound (source dest firstHop : Host)
  | string (error : String)
  /-- The search for a first hop does not end. -/
  | diverges
  deriving DecidableEq, Repr

/-! ## Input -/

/-- The links of a host: the host at the other end, the address here, the address there.
    Sorted by host, links to one host in the order in which they came. -/
abbrev HostEntry : Type := List (Host × IPAddress × IPAddress)

/-- Inserting into a `multimap`. -/
def HostEntry.insert (entry : HostEntry) (host : Host) (ips : IPAddress × IPAddress) : HostEntry :=
  entry.orderedInsert (fun a b => a.1 < b.1) (host, ips)

def HostEntry.find (entry : HostEntry) (host : Host) : Option (IPAddress × IPAddress) :=
  (List.find? (fun pos => pos.1 = host) entry).map Prod.snd

/-- The links of every host. -/
abbrev HostHostToIpMap : Type := List HostEntry

def HostHostToIpMap.entry (ip : HostHostToIpMap) (host : Host) : HostEntry := List.getD ip host []

structure Edge where
  edgeSource : Host
  edgeDest : Host
  cost : Nat
  deriving DecidableEq, Repr

/-- The graph that edges are inserted into. -/
structure Graph where
  vertexCount : Nat
  edges : List Edge
  deriving Repr

/-- Parallel edges are allowed, so inserting does not fail. -/
def insertEdge (graph : Graph) (edgeSource edgeDest : Host) (cost : Nat) : Graph :=
  { graph with edges := graph.edges ++ [⟨edgeSource, edgeDest, cost⟩] }

/-- What the input is translated to. The position of a label is its number. -/
structure Input where
  nameToIndex : List String
  graph : Graph
  ip : HostHostToIpMap
  deriving Repr

def Input.new (numVertices : Nat) : Input where
  nameToIndex := []
  graph := ⟨numVertices, []⟩
  ip := List.replicate numVertices []

/-- The number of a label, a new one when it was not seen before. -/
def Input.index (input : Input) (host : String) : Except Exception (Input × Host) :=
  match input.nameToIndex.idxOf? host with
  | some pos => .ok (input, pos)
  | none =>
    let vertexCounter := input.nameToIndex.length + 1
    if vertexCounter > input.ip.length then .error (.tooManyHosts input.ip.length)
    else .ok ({ input with nameToIndex := input.nameToIndex ++ [host] }, vertexCounter - 1)

/-- A link is kept at both of its hosts. -/
def Input.link (input : Input) (first second : Host) (line : Line) : Input :=
  { input with
    graph := insertEdge input.graph first second line.weight
    ip := (input.ip.modify first (·.insert second (line.firstIp, line.secondIp))).modify second
      (·.insert first (line.secondIp, line.firstIp)) }

/-- One turn of the loop over the lines. -/
def inputEdge (input : Input) (line : Line) : Except Exception Input := do
  let (input, firstPos) ← input.index line.firstHost
  let (input, secondPos) ← input.index line.secondHost
  return input.link firstPos secondPos line

def inputEdges (numVertices : Nat) (lines : List Line) : Except Exception Input :=
  lines.foldlM inputEdge (Input.new numVertices)

/-! ## Routes from one source -/

/-- The predecessor and the distance of every vertex. -/
abbrev Paths : Type := (Host → Host) × (Host → Nat)

/-- A graph with the shortest paths from a source. -/
structure SingleSource where
  vertexCount : Nat
  source : Host
  dist_map : Host → Nat
  first_hop : List Host

def SingleSource.getFirstHop (graph : SingleSource) (index : Host) : Host :=
  graph.first_hop.getD index 0

def SingleSource.getDistance (graph : SingleSource) (index : Host) : Nat := graph.dist_map index

/-- The first hop of a host. The predecessors of a host are ever nearer to the source, by its
    distance at the latest the source is met. -/
def firstHopOf (pred dist : Host → Nat) (source i : Host) : Option Host :=
  if i ≠ pred i then ShortestPath.firstHop pred source (dist i) i else some i

variable (dijkstra_shortest_paths : Graph → Host → Paths)

def route (graph : Graph) (newSource : Host) : Except Exception SingleSource :=
  let (pred, dist) := dijkstra_shortest_paths graph newSource
  match (List.range graph.vertexCount).mapM (firstHopOf pred dist newSource) with
  | some first_hop => .ok ⟨graph.vertexCount, newSource, dist, first_hop⟩
  | none => .error .diverges

end Dijkstra

end Emulab
