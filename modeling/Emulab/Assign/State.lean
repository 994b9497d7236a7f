import Emulab.Assign.Topology

/-! # The state of a run of assign

  What `add_node` and `remove_node` change: the score with its violations, and
  in the two graphs the assignments of vnodes, the mappings of vlinks and what
  is in use of the physical resources.
-/

namespace Emulab.Assign

open Function

/-! ## Section 1: Failures -/

/-- How the program can die. -/
inductive Fault where
  | markVlinkUnassigned
  | markVlinkAssigned
  | assertion
  | nullPointer
  /-- Something is read that has no value: an uninitialised variable, the front
      of an empty list, an edge that does not exist. -/
  | undefined
  | exitFatal
  | endless
deriving DecidableEq

/-- `front()` of a list. -/
def front {α : Type} : List α → Except Fault α
  | [] => .error .undefined
  | a :: _ => .ok a

/-- `back()` of a list. -/
def back {α : Type} (l : List α) : Except Fault α := front l.reverse

/-! ## Section 2: Records -/

structure ViolatedInfo where
  unassigned : Int := 0
  pnodeLoad : Int := 0
  noConnection : Int := 0
  linkUsers : Int := 0
  bandwidth : Int := 0
  desires : Int := 0
  vclass : Int := 0
  delay : Int := 0
  incorrectEndpoints : Int := 0
  trivialMix : Int := 0
  subnodes : Int := 0
  maxTypes : Int := 0
deriving DecidableEq

def ViolatedInfo.countViolations (v : ViolatedInfo) : Int :=
  v.unassigned + v.pnodeLoad + v.noConnection + v.linkUsers + v.bandwidth + v.desires +
    v.vclass + v.delay + v.incorrectEndpoints + v.trivialMix + v.subnodes + v.maxTypes

inductive LinkType where
  | unmapped
  | direct
  | intraswitch
  | interswitch
  | trivial
  | delayed
deriving DecidableEq

/-- `tb_link_info`. -/
structure LinkInfo where
  typeUsed : LinkType
  plinks : List PEdge
  switches : List PVertex
deriving DecidableEq

/-- What a run changes of a vnode, -/
structure VnodeState where
  type : String
  assigned : Bool
  assignment : PVertex
deriving DecidableEq

/-- and what is changed with its links. -/
structure VnodeLinks where
  nontrivialLinks : Int
  trivialLinks : Int
deriving DecidableEq

/-- What a run changes of a vlink. -/
structure VlinkState where
  noConnection : Bool
  linkInfo : LinkInfo
  /-- `delay_info.bandwidth`, which is adjusted for some vlinks. -/
  bandwidth : Int
deriving DecidableEq

/-- What a run changes of a pnode, -/
structure PnodeState where
  typed : Bool
  currentType : String
  currentTypeRecord : Option String
  load : String → Int
  totalLoad : Int

/-- and what is changed with the links over it. -/
structure PnodeLinks where
  switchUsedLinks : Int
  nontrivialBwUsed : Int
  trivialBwUsed : Int

abbrev NodePair := String × String

/-- What a run changes of a plink. -/
structure PlinkState where
  bwUsed : Int
  emulated : Int
  nonemulated : Int
  currentEndpoints : NodePair
  currentCount : Int
  vedgeCounts : List (NodePair × Int)

/-- `tb_pclass`. The members are lists of pnodes, one for each type. -/
structure Pclass where
  usedMembers : Int
  disabled : Bool
  members : List (String × List PVertex)

/-- `tb_vclass`. The types are in the order in which the hash map is iterated over. -/
structure Vclass (R : Type) where
  members : List (String × Int)
  weight : R
  score : R
  dominant : String

/-- All that a run changes. -/
structure State (R : Type) where
  score : R
  violated : Int
  vinfo : ViolatedInfo
  vnode : VVertex → VnodeState
  vnodeLinks : VVertex → VnodeLinks
  vlink : VEdge → VlinkState
  pnode : PVertex → PnodeState
  pnodeLinks : PVertex → PnodeLinks
  plink : PEdge → PlinkState
  ptypeUsers : String → Int
  pclass : Nat → Pclass
  vclass : String → Vclass R
  inUseGlobally : Nat → Int
  /-- `used_local_capacity` of a feature of a pnode, by its place in the list. -/
  usedLocalCapacity : PVertex → Nat → R

/-! ## Section 3: What a run starts from -/

/-- All that the parsers have read and prepared. -/
structure Env (R : Type) where
  vg : VGraph R
  pg : PGraph R
  opts : Options
  score : ScoreConstants R
  feature : Nat → FeatureDesire
  ptypeMaxUsers : String → Int
  /-- The pclasses as generated. -/
  pclass : Nat → Pclass
  /-- The vclasses as parsed: -/
  vclass : String → Vclass R
  vclass_keys_nodup : ∀ c, ((vclass c).members.map Prod.fst).Nodup
  /-- and no type has a member yet. -/
  vclass_members_zero : ∀ c, ∀ m ∈ (vclass c).members, m.2 = 0
  /-- `operator<` of interned strings, which compares their addresses. -/
  strLt : String → String → Bool
  strLt_asymm : ∀ a b, strLt a b = true → strLt b a = false
  strLt_total : ∀ a b, a ≠ b → strLt a b = true ∨ strLt b a = true
  /-- The order in which a hash map is iterated over. -/
  hashOrder : List (NodePair × Int) → List (NodePair × Int)
  hashOrder_perm : ∀ l, (hashOrder l).Perm l

/-! What small topologies have in common. -/

theorem nodup_one : [1].Nodup := by decide

theorem nodup_one_two : [1, 2].Nodup := by decide

theorem src_mem_one_two : ∀ e ∈ ([1] : List VEdge), (1 : VVertex) ∈ [1, 2] := by decide

theorem dst_mem_one_two : ∀ e ∈ ([1] : List VEdge), (2 : VVertex) ∈ [1, 2] := by decide

theorem noSwitches : PVertex → ∀ q ∈ ([] : List PVertex), false = true := by simp

theorem noSlink : PVertex → PVertex → ∀ e : PEdge, none = some e →
    PlinkType.normal = PlinkType.interswitch := by simp

theorem noMembers : String → ∀ m ∈ ([] : List (String × Int)), m.2 = 0 := by simp

theorem string_lt_asymm (a b : String) (h : decide (a < b) = true) : decide (b < a) = false :=
  decide_eq_false (String.lt_asymm (of_decide_eq_true h))

theorem string_lt_total (a b : String) (h : a ≠ b) : decide (a < b) = true ∨ decide (b < a) = true := by
  by_contra hnot
  simp only [not_or, decide_eq_true_eq, String.not_lt] at hnot
  exact h (String.le_antisymm hnot.2 hnot.1)

theorem id_perm (l : List (NodePair × Int)) : (id l).Perm l := .refl l

/-- The state when the topologies have been read. -/
def State.parsed {R : Type} [Double R] (env : Env R) : State R where
  score := 0
  violated := 0
  vinfo := {}
  vnode := fun v => { type := (env.vg.vnode v).type, assigned := false, assignment := 0 }
  vnodeLinks := fun _ => { nontrivialLinks := 0, trivialLinks := 0 }
  vlink := fun e =>
    { noConnection := true, linkInfo := ⟨.unmapped, [], []⟩, bandwidth := (env.vg.vlink e).bandwidth }
  pnode := fun _ =>
    { typed := false, currentType := "", currentTypeRecord := none, load := fun _ => 0,
      totalLoad := 0 }
  pnodeLinks := fun _ => { switchUsedLinks := 0, nontrivialBwUsed := 0, trivialBwUsed := 0 }
  plink := fun _ =>
    { bwUsed := 0, emulated := 0, nonemulated := 0, currentEndpoints := ("", ""),
      currentCount := 0, vedgeCounts := [] }
  ptypeUsers := fun _ => 0
  pclass := env.pclass
  vclass := env.vclass
  inUseGlobally := fun _ => 0
  usedLocalCapacity := fun _ _ => 0

/-! ## Section 4: Updates -/

namespace State

variable {R : Type}

def sadd [Double R] (s : State R) (amount : R) : State R := { s with score := s.score + amount }

def ssub [Double R] (s : State R) (amount : R) : State R := { s with score := s.score - amount }

def setVnode (s : State R) (v : VVertex) (f : VnodeState → VnodeState) : State R :=
  { s with vnode := update s.vnode v (f (s.vnode v)) }

def setVnodeLinks (s : State R) (v : VVertex) (f : VnodeLinks → VnodeLinks) : State R :=
  { s with vnodeLinks := update s.vnodeLinks v (f (s.vnodeLinks v)) }

def setVlink (s : State R) (e : VEdge) (f : VlinkState → VlinkState) : State R :=
  { s with vlink := update s.vlink e (f (s.vlink e)) }

def setPnode (s : State R) (p : PVertex) (f : PnodeState → PnodeState) : State R :=
  { s with pnode := update s.pnode p (f (s.pnode p)) }

def setPnodeLinks (s : State R) (p : PVertex) (f : PnodeLinks → PnodeLinks) : State R :=
  { s with pnodeLinks := update s.pnodeLinks p (f (s.pnodeLinks p)) }

def setPlink (s : State R) (e : PEdge) (f : PlinkState → PlinkState) : State R :=
  { s with plink := update s.plink e (f (s.plink e)) }

def setPclass (s : State R) (c : Nat) (f : Pclass → Pclass) : State R :=
  { s with pclass := update s.pclass c (f (s.pclass c)) }

end State

end Emulab.Assign
