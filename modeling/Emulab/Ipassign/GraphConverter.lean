import Mathlib.Algebra.BigOperators.Group.List.Lemmas
import Mathlib.Tactic

/-! # Graphs of LANs

  The partitioners work on a graph whose vertices are LANs, with an edge for every host
  that two LANs have in common. It is given by one list with the neighbours of all vertices
  and another with the index at which the neighbours of each vertex begin.
-/

namespace Emulab.Ipassign

open List

/-! ## Section 1: Model -/

/-- A LAN, as the data that is converted tells of it. A LAN that is not a vertex has a negative number. -/
structure LanRef where
  number : Int
  weight : Int
deriving DecidableEq, Repr

/-- The data that is converted: the LANs in their order, each with the hosts inside, and for
    each host the LANs that it is in. -/
structure GraphData where
  lans : List (LanRef × List Nat)
  lansInHost : Nat → List LanRef

structure Graph where
  indexes : List Nat
  neighbors : List Nat
  weights : List Int
deriving DecidableEq, Repr

namespace Graph

def convertAddHost (data : GraphData) (sourceLan : LanRef) (graph : Graph) (currentHost : Nat) : Graph :=
  (data.lansInHost currentHost).foldl (fun graph dest =>
    if sourceLan.number ≠ dest.number ∧ 0 ≤ dest.number then
      { graph with
        neighbors := graph.neighbors ++ [dest.number.toNat]
        weights := graph.weights ++ [sourceLan.weight + dest.weight] }
    else graph) graph

def convertAddLan (data : GraphData) (graph : Graph) (sourceLan : LanRef × List Nat) : Graph :=
  sourceLan.2.foldl (convertAddHost data sourceLan.1) graph

/-- The index of the next neighbour. -/
def pushIndex (graph : Graph) : Graph :=
  { graph with indexes := graph.indexes ++ [graph.neighbors.length] }

def convert (data : GraphData) : Graph :=
  (data.lans.foldl (fun graph lan => convertAddLan data graph.pushIndex lan) ⟨[], [], []⟩).pushIndex

/-- The neighbours of a vertex: those from its index on, up to that of the next vertex. -/
def adjacents (graph : Graph) (v : Nat) : List Nat :=
  (graph.neighbors.take (graph.indexes.getD (v + 1) 0)).drop (graph.indexes.getD v 0)

/-- An edge can be walked in both directions. -/
def Symmetric (graph : Graph) : Prop := ∀ v w, w ∈ graph.adjacents v → v ∈ graph.adjacents w

/-! ## Section 2: The neighbours of a LAN -/

/-- The LANs that a LAN has a host in common with, once for each such host. -/
def linked (data : GraphData) (lan : LanRef × List Nat) : List LanRef :=
  lan.2.flatMap fun host =>
    (data.lansInHost host).filter fun dest => lan.1.number ≠ dest.number ∧ 0 ≤ dest.number

theorem convertAddHost_eq (data : GraphData) (sourceLan : LanRef) (graph : Graph) (host : Nat) :
    let dests := (data.lansInHost host).filter fun dest =>
      sourceLan.number ≠ dest.number ∧ 0 ≤ dest.number
    convertAddHost data sourceLan graph host = { graph with
        neighbors := graph.neighbors ++ dests.map (·.number.toNat)
        weights := graph.weights ++ dests.map (sourceLan.weight + ·.weight) } := by
  unfold convertAddHost
  induction data.lansInHost host generalizing graph with
  | nil => simp
  | cons dest rest ih =>
    rw [foldl_cons]
    by_cases hdest : sourceLan.number ≠ dest.number ∧ 0 ≤ dest.number
    · rw [if_pos hdest, ih]
      simp [hdest]
    · rw [if_neg hdest, ih]
      simp [hdest]

theorem convertAddLan_eq (data : GraphData) (graph : Graph) (lan : LanRef × List Nat) :
    convertAddLan data graph lan = { graph with
        neighbors := graph.neighbors ++ (linked data lan).map (·.number.toNat)
        weights := graph.weights ++ (linked data lan).map (lan.1.weight + ·.weight) } := by
  unfold convertAddLan linked
  induction lan.2 generalizing graph with
  | nil => simp
  | cons host rest ih =>
    rw [foldl_cons, ih, convertAddHost_eq]
    simp

theorem convert_eq (data : GraphData) :
    (convert data).neighbors = (data.lans.map fun lan => (linked data lan).map (·.number.toNat)).flatten ∧
      (convert data).indexes = (List.range (data.lans.length + 1)).map fun i =>
        (((data.lans.map fun lan => (linked data lan).map (·.number.toNat)).map List.length).take i).sum := by
  unfold convert
  induction data.lans using List.reverseRecOn with
  | nil => simp [pushIndex]
  | append_singleton lans lan ih =>
    obtain ⟨hneighbors, hindexes⟩ := ih
    rw [foldl_append, foldl_cons, foldl_nil, convertAddLan_eq]
    simp only [pushIndex] at hneighbors hindexes ⊢
    constructor
    · rw [hneighbors]
      simp
    · have hlength : (lans ++ [lan]).length + 1 = lans.length + 1 + 1 := by simp
      rw [hindexes, hlength, range_succ (n := lans.length + 1), map_append]
      congr 1
      · apply map_congr_left
        intro i hi
        have hle : i ≤ lans.length := by
          have := mem_range.mp hi
          omega
        rw [map_append, map_append, take_append_of_le_length (by simpa using hle)]
      · rw [hneighbors]
        simp [take_of_length_le, length_flatten, map_map, Function.comp_def]

theorem adjacents_of_ge {data : GraphData} {v : Nat} (hv : data.lans.length ≤ v) :
    (convert data).adjacents v = [] := by
  obtain ⟨-, hindexes⟩ := convert_eq data
  have hend : (convert data).indexes.getD (v + 1) 0 = 0 := by
    rw [getD_eq_getElem?_getD, List.getElem?_eq_none]
    · rfl
    · rw [hindexes]
      simpa using hv
  rw [adjacents, hend]
  simp

/-- Only the vertices have neighbours. -/
theorem symmetric_iff {data : GraphData} : (convert data).Symmetric ↔
    ∀ v < data.lans.length, ∀ w ∈ (convert data).adjacents v, v ∈ (convert data).adjacents w := by
  constructor
  · exact fun hsymm v _ w hw => hsymm v w hw
  · intro h v w hw
    by_cases hv : v < data.lans.length
    · exact h v hv w hw
    · rw [adjacents_of_ge (by omega)] at hw
      cases hw

end Graph

end Emulab.Ipassign
