import Emulab.Lib.Blocks
import Emulab.Lib.Machine

/-! # The IP address range buddy allocator

  The allocated ranges of an address space as leaves of a binary tree: the
  path to a leaf is what follows the common bits of the space in the range's
  address. `Tree::Binary` and `Net::IP` are packages from elsewhere; they are
  parameters, with what is relied on of their documented behaviour.
-/

namespace Emulab.Db

open Blocks Machine

/-! ## Section 1: The packages -/

/-- What is stored in a node of the tree. -/
inductive NodeValue where
  | star
  /-- A bit of an address, and whether this is the last bit of a range. -/
  | node (value : Bool) (term : Bool)

/-- The value of `term`, which the root does not have. -/
def NodeValue.term : NodeValue → Bool
  | .star => false
  | .node _ term => term

/-- The value of `value`, which the root does not have. -/
def NodeValue.bit : NodeValue → Bool
  | .star => false
  | .node value _ => value

/-- The methods of `Tree::Binary`. A tree is a value here: a subtree that has
    changed is set again in its parent. -/
structure TreeBinary (T : Type) where
  new : NodeValue → T
  getNodeValue : T → NodeValue
  getLeft : T → Option T
  getRight : T → Option T
  setLeft : T → T → T
  setRight : T → T → T
  /-- The subtrees in the order in which `traverse` visits them, with their depths. -/
  traverse : T → List (Nat × T)

/-- The documented behaviour of `Tree::Binary`. -/
structure TreeBinary.Lawful {T : Type} (B : TreeBinary T) : Prop where
  getNodeValue_new : ∀ v, B.getNodeValue (B.new v) = v
  getLeft_new : ∀ v, B.getLeft (B.new v) = none
  getRight_new : ∀ v, B.getRight (B.new v) = none
  getNodeValue_setLeft : ∀ t c, B.getNodeValue (B.setLeft t c) = B.getNodeValue t
  getNodeValue_setRight : ∀ t c, B.getNodeValue (B.setRight t c) = B.getNodeValue t
  getLeft_setLeft : ∀ t c, B.getLeft (B.setLeft t c) = some c
  getRight_setRight : ∀ t c, B.getRight (B.setRight t c) = some c
  getRight_setLeft : ∀ t c, B.getRight (B.setLeft t c) = B.getRight t
  getLeft_setRight : ∀ t c, B.getLeft (B.setRight t c) = B.getLeft t
  setLeft_getLeft : ∀ t c, B.getLeft t = some c → B.setLeft t c = t
  setRight_getRight : ∀ t c, B.getRight t = some c → B.setRight t c = t
  /-- First the tree itself, then the left and then the right subtree. -/
  traverse_eq : ∀ t, B.traverse t = (0, t) ::
    ((B.getLeft t).elim [] B.traverse ++ (B.getRight t).elim [] B.traverse).map
      fun x => (x.1 + 1, x.2)

/-- The methods of `Net::IP`. -/
structure NetIP (IP : Type) where
  /-- Parse an address range; `none` if it is not valid. -/
  new : String → Option IP
  /-- The message of the last error of `new`. -/
  error : String → String
  binip : IP → List Bool
  prefixlen : IP → Nat
  prefixText : IP → String
  /-- Whether `overlaps` of the first range returns `IP_B_IN_A_OVERLAP`. -/
  overlapsBInA : IP → IP → Bool
  /-- The address with the given bits, by way of `ip_bintoip`. -/
  ofBin : List Bool → IP
  binadd : IP → IP → IP

/-- The addresses from one on, of a range with the given prefix length. -/
def addressesFrom (start plen : Nat) : Set Nat := {n | start ≤ n ∧ n < start + 2 ^ (32 - plen)}

def NetIP.addresses {IP : Type} (N : NetIP IP) (ip : IP) : Set Nat :=
  addressesFrom (value (N.binip ip)) (N.prefixlen ip)

/-- The documented behaviour of `Net::IP`, for version 4. -/
structure NetIP.Lawful {IP : Type} (N : NetIP IP) : Prop where
  length_binip : ∀ a, (N.binip a).length = 32
  prefixlen_le : ∀ a, N.prefixlen a ≤ 32
  /-- A range is valid only if the bits behind its prefix are zero. -/
  drop_binip : ∀ a, (N.binip a).drop (N.prefixlen a) = List.replicate (32 - N.prefixlen a) false
  overlapsBInA_iff : ∀ a b, N.overlapsBInA a b = true ↔ N.addresses b ⊂ N.addresses a
  binip_ofBin : ∀ l, l.length = 32 → N.binip (N.ofBin l) = l
  value_binadd : ∀ a b, value (N.binip a) + value (N.binip b) < 2 ^ 32 →
    value (N.binip (N.binadd a b)) = value (N.binip a) + value (N.binip b)

/-! ## Section 2: The allocator -/

section
variable {T IP : Type} (B : TreeBinary T) (N : NetIP IP)

def getChild (bit : Bool) (t : T) : Option T := if bit then B.getRight t else B.getLeft t

def setChild (bit : Bool) (t c : T) : T := if bit then B.setRight t c else B.setLeft t c

/-- The loop of `embedAddressRange` over the bits of an address, from the node
    `tptr` at depth `curdepth` on: the message it dies with, and the tree. -/
def embedBits (plen : Nat) : List Bool → Nat → T → Option String × T
  | [], _, tptr => (none, tptr)
  | bit :: bits, curdepth, tptr =>
    -- are we at terminal depth for the input range?
    let term := decide (plen = curdepth + 1)
    match getChild B bit tptr with
    | some child =>
      if term || (B.getNodeValue child).term then
        (some "found conflicting node while embedding!", tptr)
      else
        let (died, child) := embedBits plen bits (curdepth + 1) child
        (died, setChild B bit tptr child)
    | none =>
      let child := B.new (.node bit term)
      if term then
        (none, setChild B bit tptr child)
      else
        let (died, child) := embedBits plen bits (curdepth + 1) child
        (died, setChild B bit tptr child)

/-- Embed an existing IP range reservation into the binary tree. -/
def embedAddressRange (bobj : IP) (root : T) (addr : String) : Option String × T :=
  match N.new addr with
  | none => (some (N.error addr), root)
  | some inobj =>
    if N.overlapsBInA bobj inobj then
      embedBits B (N.prefixlen inobj) ((N.binip inobj).drop (N.prefixlen bobj)) (N.prefixlen bobj) root
    else
      (some ("range to embed (" ++ N.prefixText inobj ++ ") must belong to base range: " ++
        N.prefixText bobj), root)

/-- The child that a bit leads to, or a new one that is not terminal. -/
def childOrNew (bit : Bool) (t : T) : T := (getChild B bit t).getD (B.new (.node bit false))

/-- Look for an empty slot, `above` levels above the parents of the slots; the way to the new node, and the
    tree. It walks down the right side of the tree, going left only when it must. -/
def findFree : (above : Nat) → T → Option (List Bool) × T
  | 0, cn =>
    if (B.getNodeValue cn).term then (none, cn)
    else if (B.getRight cn).isNone then
      (some [true], B.setRight cn (B.new (.node true true)))
    else if (B.getLeft cn).isNone then
      (some [false], B.setLeft cn (B.new (.node false true)))
    else
      -- no free slot: dead end
      (none, cn)
  | above + 1, cn =>
    if (B.getNodeValue cn).term then (none, cn)
    else
      let (rval, right) := findFree above (childOrNew B true cn)
      let cn := B.setRight cn right
      match rval with
      | some way => (some (true :: way), cn)
      | none =>
        -- nothing to the right, go left
        let (rval, left) := findFree above (childOrNew B false cn)
        (rval.map (false :: ·), B.setLeft cn left)

def addrBits : T → List Bool → List Bool
  | _, [] => []
  | t, bit :: way =>
    match getChild B bit t with
    | some child => (B.getNodeValue child).bit :: addrBits child way
    | none => []

/-- Ask for a free address range of the given prefix length: the base address
    of the range, if there is one, or the message it dies with, and the tree. -/
def requestAddressRange (bobj : IP) (root : T) (plen : Nat) : Except String (Option IP) × T :=
  if plen ≤ N.prefixlen bobj then
    (.error ("Prefix is too big for the base range.\nRequested: " ++ toString plen ++
      "\t Base Range: " ++ N.prefixText bobj), root)
  else
    let reqdepth := plen - N.prefixlen bobj
    match findFree B (reqdepth - 1) root with
    | (none, root) => (.ok none, root)
    | (some way, root) =>
      let hbits := List.replicate (N.prefixlen bobj) false ++ addrBits B root way ++
        List.replicate ((N.binip bobj).length - plen) false
      (.ok (some (N.binadd (N.ofBin hbits) bobj)), root)

structure Range where
  addr : List Bool
  plen : Nat
deriving DecidableEq

/-- What `getRanges` does at a node, with the bits on the way to it and the ranges found so far. -/
def visitNode (bprebits : List Bool) (postlen pflen : Nat) (st : List Bool × List Range)
    (x : Nat × T) : List Bool × List Range :=
  if x.1 = 0 then st
  else
    let addr := st.1.take (x.1 - 1) ++ [(B.getNodeValue x.2).bit]
    if (B.getLeft x.2).isNone && (B.getRight x.2).isNone then
      (addr, st.2 ++ [{
        addr := bprebits ++ addr ++ List.replicate (postlen - x.1) false
        plen := x.1 + pflen }])
    else
      (addr, st.2)

/-- All ranges embedded in the tree. -/
def getRanges (bobj : IP) (root : T) : List Range :=
  let pflen := N.prefixlen bobj
  let bprebits := (N.binip bobj).take pflen
  let postlen := (N.binip bobj).length - pflen
  ((B.traverse root).foldl (visitNode B bprebits postlen pflen) ([], [])).2

inductive BuddyOp where
  | embed (addr : String)
  | request (plen : Nat)

/-- The tree, with the ranges that have been allocated. -/
structure Buddy (T : Type) where
  root : T
  /-- What successful calls have embedded, and what they have returned. -/
  allocated : List Range

def buddyInit : Buddy T := { root := B.new .star, allocated := [] }

def buddyStep (bobj : IP) (s : Buddy T) : BuddyOp → Option (Buddy T)
  | .embed addr =>
    match embedAddressRange B N bobj s.root addr, N.new addr with
    | (none, root), some inobj =>
      some { root := root, allocated := ⟨N.binip inobj, N.prefixlen inobj⟩ :: s.allocated }
    | (_, root), _ => some { s with root := root }
  | .request plen =>
    match requestAddressRange B N bobj s.root plen with
    | (.ok (some ip), root) =>
      some { root := root, allocated := ⟨N.binip ip, plen⟩ :: s.allocated }
    | (_, root) => some { s with root := root }

end

/-! ## Section 3: The shape of the tree -/

/-- A tree as its terminal nodes: no node, a terminal node, or a node with two subtrees. -/
inductive Shape where
  | none
  | term
  | inner (child : Bool → Shape)

/-- The ways to the terminal nodes, from left to right. -/
def Shape.ways : Shape → List (List Bool)
  | .none => []
  | .term => [[]]
  | .inner child =>
    (child false).ways.map (false :: ·) ++ (child true).ways.map (true :: ·)

/-- Replace one of two children. -/
def setAt (f : Bool → Shape) (bit : Bool) (s : Shape) : Bool → Shape :=
  fun b => if b = bit then s else f b

theorem mem_ways_inner {f : Bool → Shape} {b : Bool} {p : List Bool} :
    b :: p ∈ (Shape.inner f).ways ↔ p ∈ (f b).ways := by
  cases b <;> simp [Shape.ways]

theorem nil_not_mem_ways_inner (f : Bool → Shape) : [] ∉ (Shape.inner f).ways := by
  simp [Shape.ways]

/-- Two ways of which one is part of the other lead to overlapping ranges. -/
def Overlap (p q : List Bool) : Prop := p <+: q ∨ q <+: p

theorem overlap_cons {b : Bool} {p q : List Bool} : Overlap (b :: p) (b :: q) ↔ Overlap p q := by
  simp only [Overlap, List.cons_prefix_cons, true_and]

theorem overlap_nil (p : List Bool) : Overlap [] p := Or.inl List.nil_prefix

theorem overlap_comm {p q : List Bool} : Overlap p q ↔ Overlap q p := or_comm

theorem not_overlap_of_ne {b c : Bool} (h : b ≠ c) (p q : List Bool) : ¬Overlap (b :: p) (c :: q) := by
  simp only [Overlap, List.cons_prefix_cons, not_or, not_and]
  exact ⟨fun heq => absurd heq h, fun heq => absurd heq.symm h⟩

theorem exists_overlap_inner {f : Bool → Shape} {b : Bool} {p : List Bool} :
    (∃ q ∈ (Shape.inner f).ways, Overlap (b :: p) q) ↔ ∃ q ∈ (f b).ways, Overlap p q := by
  constructor
  · rintro ⟨q, hq, hover⟩
    cases q with
    | nil => exact absurd hq (nil_not_mem_ways_inner f)
    | cons c q =>
      by_cases hbc : b = c
      · subst hbc
        exact ⟨q, mem_ways_inner.mp hq, overlap_cons.mp hover⟩
      · exact absurd hover (not_overlap_of_ne hbc p q)
  · rintro ⟨q, hq, hover⟩
    exact ⟨b :: q, mem_ways_inner.mpr hq, overlap_cons.mpr hover⟩

theorem ways_setAt {f : Bool → Shape} {b : Bool} {s : Shape} {p : List Bool} (h : s.ways.Perm (p :: (f b).ways)) :
    (Shape.inner (setAt f b s)).ways.Perm ((b :: p) :: (Shape.inner f).ways) := by
  cases b with
  | false =>
    simp only [Shape.ways, setAt, if_true, Bool.true_eq_false, if_false]
    exact (h.map (false :: ·)).append_right _
  | true =>
    simp only [Shape.ways, setAt, if_true, Bool.false_eq_true, if_false]
    exact ((h.map (true :: ·)).append_left _).trans List.perm_middle

end Emulab.Db
