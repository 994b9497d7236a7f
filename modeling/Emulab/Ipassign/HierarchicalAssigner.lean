import Emulab.Lib.Outcome
import Emulab.Lib.Subnet

/-! # Hierarchical assignment of addresses

  The LANs of an experiment are divided into partitions, and these again, as
  long as the bits of the addresses suffice. Each partition gets a number,
  which is put behind the prefix of what is divided. A LAN that is alone in a
  partition gets its prefix; where a division would not fit, all LANs that are
  left are numbered. The interfaces of a LAN are numbered from one.

  The partitions come from outside. Counters are natural numbers here: one
  that is too large for an `int` counts more than there are addresses.
-/

namespace Emulab.Ipassign

/-! ## Section 1: Bits and prefixes -/

abbrev totalBits : Int := 32

abbrev prefixBits : Int := 8

/-- `prefix`: 10.0.0.0. -/
abbrev prefixIp : Nat := 10 * 2 ^ 24

inductive Fault where
  /-- `ConflictingNetworkEntryException`. -/
  | thrown
  /-- A number is shifted by a negative amount, or by its width: the language does not say what happens. -/
  | undefined
  | outOfFuel
deriving DecidableEq

/-- The loop of `countToBlockBit`. -/
def countLoop : (fuel count : Nat) → Nat
  | 0, _ => 0
  | fuel + 1, count => if count ≠ 0 then countLoop fuel (count >>> 1) + 1 else 0

/-- The number of bits that a number takes. -/
def countToBlockBit (count : Nat) : Nat := countLoop count count

/-- `x << n` for an unsigned number of `width` bits. -/
def shiftLeft (width x : Nat) (n : Int) : Except Fault Nat :=
  if 0 ≤ n ∧ n < width then .ok (x <<< n.toNat % 2 ^ width) else .error .undefined

def maskSizeToMask (maskSize : Int) : Except Fault Nat := shiftLeft 32 (2 ^ 32 - 1) (32 - maskSize)

structure NetworkEntry where
  /-- `m_prefix`. -/
  start : Nat
  maskSize : Int
deriving DecidableEq

def setNetworkEntry (newStart : Nat) (newMaskSize : Int) : Except Fault NetworkEntry := do
  let mask ← maskSizeToMask newMaskSize
  if newStart &&& mask ≠ newStart then
    .error .thrown
  else
    .ok { start := newStart, maskSize := newMaskSize }

/-- The leaf that each LAN leads to. -/
abbrev Leaves := Nat → Option NetworkEntry

def setLeaf (leaves : Leaves) (lan newSubnet : Nat) (newBits : Int) : Except Fault Leaves := do
  let newLeaf ← setNetworkEntry newSubnet (totalBits - newBits)
  .ok (Function.update leaves lan (some newLeaf))

/-! ## Section 2: Partitions -/

/-- What a partitioner returns: how many partitions there are, and that of each LAN. -/
structure Partitioning where
  count : Nat
  labels : List Nat

/-- A call of `divideAndConquer`. -/
structure Block where
  blockBits : Int
  partitionList : List Nat
deriving DecidableEq

/-- The partitioner. It need not answer a question twice in the same way; within a run no block
    comes up twice. -/
abbrev Partitioner := Block → Partitioning

section

variable (part : Partitioner) (lans : List (List Nat))

/-- How many hosts a LAN has. -/
def hostCount (lan : Nat) : Nat := (lans.getD lan []).length

/-- The loop of `partitioningIsOk`: the number of LANs of each partition, and of the hosts of the
    largest. -/
def tally (p : Partitioning) (partitionList : List Nat) : Nat → Nat × Nat :=
  (partitionList.zip p.labels).foldl (fun t (lan, partNumber) => Function.update t partNumber
      ((t partNumber).1 + 1, max (t partNumber).2 (hostCount lans lan)))
    fun _ => (0, 0)

/-- All partitions fit into the block. -/
def partitioningIsOk (b : Block) : Bool :=
  let p := part b
  let partitionBits := countToBlockBit p.count
  (List.range p.count).all fun i =>
    !decide (b.blockBits < partitionBits + countToBlockBit (tally lans p b.partitionList i).1 +
        countToBlockBit (tally lans p b.partitionList i).2)

/-- Divide up the LANs amongst the partitions. -/
def components (b : Block) : List (List Nat) :=
  let p := part b
  (List.range p.count).map fun i =>
    ((b.partitionList.zip p.labels).filter fun x => x.2 = i).map (·.1)

/-- The bits that are left when partitions are numbered. Without any the number of the last one is
    the largest number there is. -/
def dividedBits (b : Block) : Int :=
  let size := (components part b).length
  b.blockBits - max 1 (countToBlockBit (if size = 0 then 2 ^ 32 - 1 else size - 1))

/-- The bits that are left when LANs are numbered. -/
def leftBits (b : Block) : Int := b.blockBits - countToBlockBit b.partitionList.length

/-- The body of the loop over the partitions. -/
def assignComponent (divide : Nat → Block → Leaves → Except Fault Leaves) (subnet : Nat)
    (newBits : Int) (leaves : Leaves) (component : List Nat × Nat) : Except Fault Leaves := do
  let number ← shiftLeft 64 component.2 newBits
  let newSubnet := (number ||| subnet) % 2 ^ 32
  match component.1 with
  | [] => .ok leaves
  | [lan] => setLeaf leaves lan newSubnet newBits
  | lan :: lan' :: rest =>
    divide newSubnet { blockBits := newBits, partitionList := lan :: lan' :: rest } leaves

/-- The body of the loop over the LANs of a block that is not divided. -/
def assignLan (subnet : Nat) (newBits : Int) (leaves : Leaves) (lan : Nat × Nat) : Except Fault Leaves := do
  let number ← shiftLeft 32 lan.2 newBits
  setLeaf leaves lan.1 (number ||| subnet) newBits

def divideAndConquer : (fuel : Nat) → (subnet : Nat) → Block → Leaves → Except Fault Leaves
  | 0, _, _, _ => .error .outOfFuel
  | fuel + 1, subnet, b, leaves => do
    let _ ← setNetworkEntry subnet (totalBits - b.blockBits)
    if partitioningIsOk part lans b then
      (components part b).zipIdx.foldlM
        (assignComponent (divideAndConquer fuel) subnet (dividedBits part b)) leaves
    else
      b.partitionList.zipIdx.foldlM (assignLan subnet (leftBits b)) leaves

def rootBlock : Block where
  blockBits := totalBits - prefixBits
  partitionList := List.range lans.length

def ipAssign : Except Fault Leaves :=
  divideAndConquer part lans 25 prefixIp (rootBlock lans) fun _ => none

end

/-- The address of an interface, as it is printed. -/
def address (e : NetworkEntry) (i : Nat) : Nat := (e.start + i + 1) % 2 ^ 32

end Emulab.Ipassign
