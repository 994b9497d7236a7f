import Emulab.Dre.Heap
import Emulab.Lib.LabelSetting

/-! # First hops in ipassign

  Dijkstra's algorithm over a heap whose elements know their place, from
  every node of a graph, and the first hops that are read off the
  predecessors by a recursion that remembers what it has found.
-/

namespace Emulab.Dre

open ShortestPath Function List

/-! ## Section 1: Graphs -/

structure Edge where
  src : Nat
  dst : Nat
  contents : Int
deriving DecidableEq

/-- A graph. A node is given by its contents. -/
structure Graph where
  nodes : List Nat
  edges : List Edge
  node_edges : Nat → List Edge
  nodes_nodup : nodes.Nodup
  /-- An edge is in the lists of its two ends. -/
  mem_node_edges : ∀ v e, e ∈ node_edges v ↔ e ∈ edges ∧ (e.src = v ∨ e.dst = v)
  ends_mem : ∀ e ∈ edges, e.src ∈ nodes ∧ e.dst ∈ nodes

namespace Graph

def empty_graph : Graph where
  nodes := []
  edges := []
  node_edges _ := []
  nodes_nodup := nodup_nil
  mem_node_edges := by simp
  ends_mem := by simp

def add_node (g : Graph) (contents : Nat) (hnew : contents ∉ g.nodes) : Graph :=
  { g with
    nodes := contents :: g.nodes
    nodes_nodup := nodup_cons.mpr ⟨hnew, g.nodes_nodup⟩
    ends_mem := fun e he =>
      ⟨mem_cons_of_mem _ (g.ends_mem e he).1, mem_cons_of_mem _ (g.ends_mem e he).2⟩ }

/-- `l.node_edges <- e :: l.node_edges` -/
def consAt (node_edges : Nat → List Edge) (v : Nat) (e : Edge) : Nat → List Edge :=
  update node_edges v (e :: node_edges v)

theorem mem_consAt {node_edges : Nat → List Edge} {v u : Nat} {e e' : Edge} :
    e' ∈ consAt node_edges v e u ↔ u = v ∧ e' = e ∨ e' ∈ node_edges u := by
  unfold consAt
  by_cases hu : u = v
  · subst hu
    simp
  · simp [hu]

def add_edge (g : Graph) (node1 node2 : Nat) (contents : Int) (h₁ : node1 ∈ g.nodes)
    (h₂ : node2 ∈ g.nodes) : Graph :=
  { g with
    edges := ⟨node1, node2, contents⟩ :: g.edges
    node_edges := consAt (consAt g.node_edges node1 ⟨node1, node2, contents⟩) node2 ⟨node1, node2, contents⟩
    mem_node_edges := by
      intro v e
      rw [mem_consAt, mem_consAt, g.mem_node_edges, mem_cons]
      constructor
      · rintro (⟨rfl, rfl⟩ | ⟨rfl, rfl⟩ | ⟨he, hv⟩)
        · exact ⟨Or.inl rfl, Or.inr rfl⟩
        · exact ⟨Or.inl rfl, Or.inl rfl⟩
        · exact ⟨Or.inr he, hv⟩
      · rintro ⟨rfl | he, hv⟩
        · rcases hv with rfl | rfl
          · exact Or.inr (Or.inl ⟨rfl, rfl⟩)
          · exact Or.inl ⟨rfl, rfl⟩
        · exact Or.inr (Or.inr ⟨he, hv⟩)
    ends_mem := by
      intro e he
      rcases mem_cons.mp he with rfl | he
      · exact ⟨h₁, h₂⟩
      · exact g.ends_mem e he }

def size (g : Graph) : Nat := g.nodes.length

def Numbered (g : Graph) : Prop := ∀ v, v ∈ g.nodes ↔ v < g.size

/-- Two nodes with an edge of this weight between them. -/
def Link (g : Graph) (u v w : Nat) : Prop :=
  ∃ e ∈ g.edges, e.contents = w ∧ (e.src = u ∧ e.dst = v ∨ e.src = v ∧ e.dst = u)

instance (g : Graph) (u v w : Nat) : Decidable (g.Link u v w) :=
  inferInstanceAs (Decidable (∃ e ∈ g.edges, e.contents = w ∧ (e.src = u ∧ e.dst = v ∨ e.src = v ∧ e.dst = u)))

end Graph

/-! ## Section 2: Dijkstra's algorithm -/

/-- The largest integer of a 64-bit machine. -/
def max_int : Int := 2 ^ 62 - 1

/-- The sum of two integers of 63 bits. -/
def add (a b : Int) : Int := (a + b).bmod (2 ^ 63)

structure DijkState where
  visited : Nat → Bool
  estimate : Nat → Int
  pred : Nat → Nat
  heap : Heap Nat
  /-- The element that an updater lowers. -/
  updaters : Nat → Option Ref

def insertNode (state : DijkState) (x : Nat) : Except Exn DijkState :=
  match state.heap.insert_obj (state.estimate x) x with
  | .error e => .error e
  | .ok (d, heap) =>
    .ok { state with heap := heap, updaters := update state.updaters x (some d) }

def fill_heap (state : DijkState) : List Nat → Except Exn DijkState
  | [] => .ok state
  | x :: xs =>
    match insertNode state x with
    | .error e => .error e
    | .ok state => fill_heap state xs

/-- The state before the heap is filled. All predecessors are `Graph.empty_node 0`. -/
def blank (node : Nat) : DijkState where
  visited _ := false
  estimate := update (fun _ => 32000) node 0
  pred _ := 0
  heap := Heap.make_heap 0
  updaters _ := none

def init (graph : Graph) (node : Nat) : Except Exn DijkState := fill_heap (blank node) graph.nodes

/-- `state.updaters.(v) weight` -/
def DijkState.lower (state : DijkState) (v : Nat) (weight : Int) : Except Exn (Heap Nat) :=
  match state.updaters v with
  | none => .ok state.heap
  | some d => state.heap.update_weight d weight

def relax (state : DijkState) (u v : Nat) (edge : Edge) : Except Exn DijkState :=
  let followed_weight := add (state.estimate u) edge.contents
  if followed_weight < state.estimate v then
    let estimate := update state.estimate v followed_weight
    match state.lower v followed_weight with
    | .error e => .error e
    | .ok heap =>
      .ok { state with estimate := estimate, heap := heap, pred := update state.pred v u }
  else .ok state

def otherEnd (node : Nat) (edge : Edge) : Nat := if edge.src ≠ node then edge.src else edge.dst

def process_edges (state : DijkState) (node : Nat) : List Edge → Except Exn DijkState
  | [] => .ok state
  | edge :: rest =>
    if state.visited (otherEnd node edge) then process_edges state node rest
    else
      match relax state node (otherEnd node edge) edge with
      | .error e => .error e
      | .ok state => process_edges state node rest

/-- `none` when the fuel does not suffice. -/
def process_nodes (graph : Graph) : Nat → DijkState → Option (Except Exn DijkState)
  | 0, _ => none
  | fuel + 1, state =>
    match state.heap.min with
    -- the only exception of `min` is `EmptyHeap`
    | .error _ => some (.ok state)
    | .ok (_, node) =>
      match state.heap.extract_min with
      | .error e => some (.error e)
      | .ok heap =>
        let state := { state with heap := heap, visited := update state.visited node true }
        match process_edges state node (graph.node_edges node) with
        | .error e => some (.error e)
        | .ok state => process_nodes graph fuel state

def run_dijkstra (graph : Graph) (node fuel : Nat) : Option (Except Exn ((Nat → Int) × (Nat → Nat))) :=
  match init graph node with
  | .error e => some (.error e)
  | .ok state =>
    (process_nodes graph fuel state).map fun r => r.map fun state => (state.estimate, state.pred)

/-! ## Section 3: First hops -/

inductive InternalFirstHop where
  | INoHop
  | INoHopYet
  | INodeHop (node : Nat)
deriving DecidableEq

open InternalFirstHop

def hop_helper (pred : Nat → Nat) (root : Nat) : Nat → (Nat → InternalFirstHop) → Nat →
    Option (InternalFirstHop × (Nat → InternalFirstHop))
  | 0, _, _ => none
  | fuel + 1, hops, node =>
    match hops node with
    | INoHop => some (INoHop, hops)
    | INodeHop hop => some (INodeHop hop, hops)
    | INoHopYet =>
      if pred node = root then
        some (INodeHop node, update hops node (INodeHop node))
      else
        (hop_helper pred root fuel hops (pred node)).map fun (hop, hops) =>
          (hop, update hops node hop)

def all_hops (pred : Nat → Nat) (root fuel : Nat) : (Nat → InternalFirstHop) → List Nat →
    Option (Nat → InternalFirstHop)
  | hops, [] => some hops
  | hops, x :: xs =>
    (hop_helper pred root fuel hops x).bind fun (_, hops) => all_hops pred root fuel hops xs

/-- What `copy_hops` writes, `none` for `HopInternalError`. -/
def copyHop (hops : Nat → InternalFirstHop) (i : Nat) : Option Int :=
  match hops i with
  | INoHop => some i
  | INodeHop h => some h
  | INoHopYet => none

/-- The outer `none` is missing fuel, the inner one `HopInternalError`. -/
def get_first_hops (graph : Graph) (pred : Nat → Nat) (root fuel : Nat) : Option (Option (List Int)) :=
  (all_hops pred root fuel (update (fun _ => INoHopYet) root INoHop) graph.nodes).map
    fun hops => (List.range graph.size).mapM (copyHop hops)

/-- Why the calculation ends without a result. -/
inductive Failure where
  | heap (e : Exn)
  | HopInternalError
deriving DecidableEq

def fill_array (g : Graph) (fuel : Nat) (node : Nat) : Option (Except Failure (List Int)) :=
  match run_dijkstra g node fuel with
  | none => none
  | some (.error e) => some (.error (.heap e))
  | some (.ok (_, pred)) =>
    match get_first_hops g pred node fuel with
    | none => none
    | some none => some (.error .HopInternalError)
    | some (some row) => some (.ok row)

def fillRows (g : Graph) (fuel : Nat) : (Nat → List Int) → List Nat → Option (Except Failure (Nat → List Int))
  | hops, [] => some (.ok hops)
  | hops, x :: xs =>
    match fill_array g fuel x with
    | none => none
    | some (.error e) => some (.error e)
    | some (.ok row) => fillRows g fuel (update hops x row) xs

def get_all_first_hops (g : Graph) (fuel : Nat) : Option (Except Failure (Nat → List Int)) :=
  fillRows g fuel (fun _ => List.replicate g.size (-1)) g.nodes

end Emulab.Dre
