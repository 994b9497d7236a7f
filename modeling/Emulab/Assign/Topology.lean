import Emulab.Lib.Outcome

/-! # Topologies for assign

  `assign` maps a virtual topology, a graph of nodes and links that an
  experimenter asks for, to a physical one. Here is what the parsers read and
  no later step changes: the two graphs, the options and the constants of the
  scoring code. What a run changes is in `State`.

  Vertex and edge descriptors are handles, here numbers. A vnode is named by
  its vvertex, a pnode by its pvertex, and the vertex of a switch in the switch
  fabric by the pvertex that is its mate.
-/

namespace Emulab.Assign

/-! ## Section 1: Arithmetic and constants -/

/-- What the scoring code uses of `double`. No law is asked for, so that what is
    shown for every instance holds with rounding and without. -/
class Double (R : Type) extends Zero R, One R, Add R, Sub R, Neg R, Mul R, Div R, IntCast R,
    LE R, LT R where
  decLE : DecidableRel (LE.le : R → R → Prop)
  decLT : DecidableRel (LT.lt : R → R → Prop)

instance decLE {R : Type} [Double R] : DecidableRel (LE.le : R → R → Prop) := Double.decLE

instance decLT {R : Type} [Double R] : DecidableRel (LT.lt : R → R → Prop) := Double.decLT

instance : Double ℚ where
  decLE := inferInstance
  decLT := inferInstance

/-- The 'constants' used in scoring. They can be changed, but it must be done
    before any actual scoring is done. -/
structure ScoreConstants (R : Type) where
  directLink : R
  intraswitchLink : R
  interswitchLink : R
  directLinkPenalty : R
  noConnection : R
  pnode : R
  pnodePenalty : R
  switch : R
  unassigned : R
  missingLocalFeature : R
  overusedLocalFeature : R
  pclass : R
  vclass : R
  emulatedLink : R
  outsideDelay : R
  trivialPenalty : R
  trivialMix : R
  subnode : R
  maxTypes : R
  powf : R → R → R

/-- The constants as they are set in the source. -/
def scoreConstants (powf : ℚ → ℚ → ℚ) : ScoreConstants ℚ where
  directLink := 0.01
  intraswitchLink := 0.02
  interswitchLink := 0.2
  directLinkPenalty := 0.5
  noConnection := 0.5
  pnode := 0.2
  pnodePenalty := 0.5
  switch := 0.5
  unassigned := 1
  missingLocalFeature := 1
  overusedLocalFeature := 0.5
  pclass := 0.5
  vclass := 1
  emulatedLink := 0.01
  outsideDelay := 0.5
  trivialPenalty := 0.5
  trivialMix := 0.5
  subnode := 0.5
  maxTypes := 0.15
  powf := powf

/-- The options of the command line that the scoring code looks at. -/
structure Options where
  allowTrivialLinks : Bool
  greedyLinkAssignment : Bool
  disablePclasses : Bool
  strategyBalance : Bool
  strategyPack : Bool
  allowOverload : Bool

/-! ## Section 2: Features and desires -/

/-- The flags of a `tb_featuredesire`. -/
structure FeatureDesire where
  isGlobal : Bool
  gOneIsOkay : Bool
  gMoreThanOne : Bool
  isLocal : Bool
  lAdditive : Bool
deriving DecidableEq

/-- `tb_node_featuredesire`: a feature of a pnode or a desire of a vnode. The
    feature itself is named by its unique identifier. -/
structure NodeFd (R : Type) where
  fd : Nat
  weight : R
  violateable : Bool

/-! ## Section 3: The virtual graph -/

abbrev VVertex := Nat
abbrev VEdge := Nat
abbrev PVertex := Nat
abbrev PEdge := Nat

/-- `tb_vnode`, as parsed. -/
structure Vnode (R : Type) where
  name : String
  /-- Empty for a node of a vclass. -/
  type : String
  /-- How many slots of the type this vnode takes up. -/
  typecount : Int
  vclass : Option String
  desires : List (NodeFd R)
  disallowTrivialMix : Bool
  subnodeOf : Option VVertex
  subnodes : List VVertex

/-- `tb_vlink`, as parsed. -/
structure Vlink where
  src : VVertex
  dst : VVertex
  type : String
  bandwidth : Int
  adjustToNativeBandwidth : Bool
  fixSrcIface : Bool
  srcIface : String
  fixDstIface : Bool
  dstIface : String
  emulated : Bool
  allowTrivial : Bool
  allowInterswitch : Bool

/-- `tb_vgraph`. -/
structure VGraph (R : Type) where
  vertices : List VVertex
  edges : List VEdge
  vnode : VVertex → Vnode R
  vlink : VEdge → Vlink
  vertices_nodup : vertices.Nodup
  edges_nodup : edges.Nodup
  src_mem : ∀ e ∈ edges, (vlink e).src ∈ vertices
  dst_mem : ∀ e ∈ edges, (vlink e).dst ∈ vertices

variable {R : Type}

/-- `out_edges`. The graph is undirected: an edge is in the lists of both of its
    ends, and a loop is twice in one. -/
def VGraph.outEdges (vg : VGraph R) (v : VVertex) : List VEdge :=
  vg.edges.flatMap fun e =>
    (if (vg.vlink e).src = v then [e] else []) ++ (if (vg.vlink e).dst = v then [e] else [])

theorem mem_flatMap_ends {α : Type} {l : List α} {p q : α → Prop} [DecidablePred p] [DecidablePred q]
    {e : α} : (e ∈ l.flatMap fun e => (if p e then [e] else []) ++ if q e then [e] else []) ↔
      e ∈ l ∧ (p e ∨ q e) := by
  simp only [List.mem_flatMap, List.mem_append, List.mem_ite_nil_right, List.mem_singleton]
  constructor
  · rintro ⟨e', he', ⟨hp, rfl⟩ | ⟨hq, rfl⟩⟩
    · exact ⟨he', .inl hp⟩
    · exact ⟨he', .inr hq⟩
  · rintro ⟨he, hp | hq⟩
    · exact ⟨e, he, .inl ⟨hp, rfl⟩⟩
    · exact ⟨e, he, .inr ⟨hq, rfl⟩⟩

@[simp] theorem VGraph.mem_outEdges {vg : VGraph R} {v : VVertex} {e : VEdge} :
    e ∈ vg.outEdges v ↔ e ∈ vg.edges ∧ ((vg.vlink e).src = v ∨ (vg.vlink e).dst = v) :=
  mem_flatMap_ends

/-- The end of an edge that one sees from an end of it. -/
def VGraph.otherEnd (vg : VGraph R) (v : VVertex) (e : VEdge) : VVertex :=
  if (vg.vlink e).dst = v then (vg.vlink e).src else (vg.vlink e).dst

/-! ## Section 4: The physical graph -/

/-- `tb_pnode::type_record`, without its load. -/
structure TypeRecord where
  maxLoad : Int
  staticType : Bool
deriving DecidableEq

/-- `tb_pnode`, as parsed, with the pclasses it is put into. -/
structure Pnode (R : Type) where
  name : String
  /-- A hash map: the record of a type is found by its name. -/
  types : List (String × TypeRecord)
  /-- The name of the ptype and the maximum load of each record. -/
  typeList : List (String × Int)
  features : List (NodeFd R)
  switches : List PVertex
  isSwitch : Bool
  trivialBw : Int
  subnodeOf : Option PVertex
  myClass : Option Nat
  myOwnClass : Option Nat

/-- `types.find`. -/
def Pnode.findType (p : Pnode R) (type : String) : Option TypeRecord := p.types.lookup type

inductive PlinkType where
  | normal
  | interswitch
  | lan
deriving DecidableEq

/-- `tb_plink`, as parsed, with its ends in the graph. -/
structure Plink where
  src : PVertex
  dst : PVertex
  srcnode : String
  srciface : String
  dstiface : String
  isType : PlinkType
  types : List String
  bandwidth : Int
  fixends : Bool

/-- `tb_pgraph`, with the switch fabric. -/
structure PGraph (R : Type) where
  edges : List PEdge
  pnode : PVertex → Pnode R
  plink : PEdge → Plink
  /-- `edge` in the switch fabric: the plink behind a link between two switches. -/
  slink : PVertex → PVertex → Option PEdge
  switchPreds : PVertex → PVertex → PVertex
  numSwitches : Nat
  switches_isSwitch : ∀ p, ∀ q ∈ (pnode p).switches, (pnode q).isSwitch = true
  /-- The switch fabric consists of interswitch links. -/
  slink_interswitch : ∀ a b e, slink a b = some e → (plink e).isType = .interswitch

/-- `out_edges`, as in the virtual graph. -/
def PGraph.outEdges (pg : PGraph R) (p : PVertex) : List PEdge :=
  pg.edges.flatMap fun e =>
    (if (pg.plink e).src = p then [e] else []) ++ (if (pg.plink e).dst = p then [e] else [])

theorem PGraph.mem_outEdges {pg : PGraph R} {p : PVertex} {e : PEdge} :
    e ∈ pg.outEdges p ↔ e ∈ pg.edges ∧ ((pg.plink e).src = p ∨ (pg.plink e).dst = p) :=
  mem_flatMap_ends

/-- The end of a physical edge that one sees from an end of it. -/
def PGraph.otherEnd (pg : PGraph R) (p : PVertex) (e : PEdge) : PVertex :=
  if (pg.plink e).dst = p then (pg.plink e).src else (pg.plink e).dst

end Emulab.Assign
