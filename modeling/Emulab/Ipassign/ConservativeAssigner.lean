import Emulab.Ipassign.HierarchicalAssigner
import Emulab.Ipassign.GraphConverter

/-! # Conservative assignment of addresses

  The LANs are divided into partitions once. An address consists of the first byte, the
  number of the partition, that of the LAN within its partition, and that of the interface.
  The three fields are as wide as their largest number needs. The widths are checked by
  their sum, which is compared with the bits of a whole address: up to 8 bits more than
  there are behind the first byte pass, and the fields reach into it.

  Counters are natural numbers here, as in hierarchical assignment. The logarithm is that
  of the library; it is only used that rounding does not lose a bit.
-/

namespace Emulab.Ipassign

open List

/-! ## Section 1: LANs -/

structure Lan where
  number : Nat
  weight : Int
  nodes : List Nat
  partition : Nat
  ip : Nat
deriving DecidableEq, Repr

structure ConservativeAssigner where
  lanList : List Lan
  nodeToLan : Nat → List Nat
  largestLan : Nat
  lanMaskSize : Int
  netMaskSize : Int
  partitionIPList : List Nat

namespace ConservativeAssigner

def new : ConservativeAssigner where
  lanList := []
  nodeToLan _ := []
  largestLan := 0
  lanMaskSize := 0
  netMaskSize := 0
  partitionIPList := []

/-- The nodes with interfaces in a LAN know of it. -/
def noteNode (number : Nat) (nodeToLan : Nat → List Nat) (node : Nat) : Nat → List Nat :=
  Function.update nodeToLan node (nodeToLan node ++ [number])

def addLan (a : ConservativeAssigner) (weight : Int) (nodes : List Nat) : ConservativeAssigner :=
  { a with
    lanList := a.lanList ++ [⟨a.lanList.length, weight, nodes, 0, 0⟩]
    largestLan := max a.largestLan nodes.length
    nodeToLan := nodes.foldl (noteNode a.lanList.length) a.nodeToLan }

/-- LANs that are added in turn, each with its weight and nodes. -/
def addLans (lans : List (Int × List Nat)) : ConservativeAssigner :=
  lans.foldl (fun a lan => a.addLan lan.1 lan.2) new

/-- `ConservativeGraphData` -/
def graphData (a : ConservativeAssigner) : GraphData where
  lans := a.lanList.map fun lan => (⟨lan.number, lan.weight⟩, lan.nodes)
  lansInHost host := (a.nodeToLan host).filterMap fun i =>
    a.lanList[i]?.map fun lan => ⟨lan.number, lan.weight⟩

/-! ## Section 2: Assigning -/

inductive Failure where
  | bitOverflow
  /-- A counter that does not exist, or a number shifted by its width: the language does not say
      what happens. -/
  | undefined
deriving DecidableEq, Repr

/-- `x << n` for an `int`, made an address -/
def shift (x : Nat) (n : Int) : Except Failure Nat :=
  match shiftLeft 32 x n with
  | .ok shifted => .ok shifted
  | .error _ => .error .undefined

section

-- `log(num)/log(2.0)`, rounded up, for a positive number
variable (log2 : Nat → Nat)

/-- `getBits`. Without a logarithm the conversion leaves the least `int`. -/
def getBits (num : Nat) : Int := if num = 0 then -2 ^ 31 else log2 num

def getLanBits (p : Partitioning) : Int :=
  match ((List.range p.count).map fun i => p.labels.count i).max? with
  | some maxPos => getBits log2 maxPos
  | none => 0

/-- How wide the three fields are. -/
structure Widths where
  network : Int
  lans : Int
  hosts : Int
deriving DecidableEq, Repr

/-- Two are added to the largest LAN, as a host number of all zeros or all ones is not used. -/
def widths (largestLan : Nat) (p : Partitioning) : Widths where
  network := if getBits log2 p.count < 0 then 0 else getBits log2 p.count
  lans := getLanBits log2 p
  hosts := getBits log2 (largestLan + 2)

def Widths.sum (w : Widths) : Int := w.hosts + w.lans + w.network

def checkBitOverflow (numBits : Int) : Except Failure Unit :=
  if numBits ≤ 0 ∨ numBits > totalBits then .error .bitOverflow else .ok ()

/-- Boundaries that can be read, if possible. -/
def Widths.readable (w : Widths) : Widths :=
  if w.network ≤ 8 ∧ w.lans ≤ 8 ∧ w.hosts ≤ 8 then ⟨8, 8, 8⟩ else w

/-- Each LAN gets to know where it belongs. -/
def setPartitions : List Lan → List Nat → List Lan
  | lan :: lans, label :: labels => { lan with partition := label } :: setPartitions lans labels
  | lans, _ => lans

/-- The loop of `assignNumbers` over the LANs. -/
def assignLans (w : Widths) (numPartitions : Nat) : (counter : Nat → Nat) → List Lan → Except Failure (List Lan)
  | _, [] => .ok []
  | counter, pos :: rest =>
    if pos.partition < numPartitions then do
      let network ← shift pos.partition (w.lans + w.hosts)
      let lan ← shift (counter pos.partition) w.hosts
      let rest ← assignLans w numPartitions
        (Function.update counter pos.partition (counter pos.partition + 1)) rest
      return { pos with ip := prefixIp ||| network ||| lan } :: rest
    else .error .undefined

def assignNumbers (a : ConservativeAssigner) (w : Widths) (numPartitions : Nat) :
    Except Failure ConservativeAssigner := do
  let w := w.readable
  let lanList ← assignLans w numPartitions (fun _ => 0) a.lanList
  return { a with
    lanList := lanList
    lanMaskSize := totalBits - w.hosts
    netMaskSize := totalBits - w.lans - w.hosts
    partitionIPList := (List.range numPartitions).map fun i =>
      (prefixIp ||| i <<< (w.lans + w.hosts).toNat) % 2 ^ 32 }

/-- `ipAssign`, with what the partitioner returns for a graph. -/
def ipAssign (partition : Graph → Partitioning) (a : ConservativeAssigner) :
    Except Failure ConservativeAssigner := do
  let p := partition (Graph.convert a.graphData)
  let w := widths log2 a.largestLan p
  checkBitOverflow w.sum
  assignNumbers { a with lanList := setPartitions a.lanList p.labels } w p.count

end

/-- The lines of `print`: the LAN, the node and the address of every interface. -/
def print (a : ConservativeAssigner) : List (Nat × Nat × Nat) :=
  a.lanList.flatMap fun lan =>
    lan.nodes.zipIdx.map fun (node, i) => (lan.number, node, (lan.ip + i + 1) % 2 ^ 32)

/-! ## Section 3: What it is for -/

/-- All addresses are in 10.0.0.0/8, and no two interfaces have one address. -/
def Sound (a : ConservativeAssigner) : Prop :=
  (∀ line ∈ a.print, line.2.2 / 2 ^ 24 = 10) ∧ (a.print.map (·.2.2)).Nodup

/-- What comes of an assignment: the exception, or sound addresses. -/
def Safe : Except Failure ConservativeAssigner → Prop
  | .ok a => a.Sound
  | .error .bitOverflow => True
  | .error .undefined => False

/-! ## Section 4: Words and interfaces -/

/-- What is put behind the first byte may reach into it. -/
theorem prefixIp_or (word : Nat) : prefixIp ||| word = 2 ^ 24 * (10 ||| word / 2 ^ 24) + word % 2 ^ 24 := by
  have hdiv : (prefixIp ||| word) / 2 ^ 24 = 10 ||| word / 2 ^ 24 := by
    rw [Nat.or_div_two_pow]
    simp [prefixIp]
  have hmod : (prefixIp ||| word) % 2 ^ 24 = word % 2 ^ 24 := by
    rw [Nat.or_mod_two_pow]
    simp [prefixIp]
  rw [← hdiv, ← hmod, Nat.div_add_mod]

/-- The addresses of the interfaces of a LAN, from the word that is put behind the first byte. -/
def addresses (lan : Nat × Nat) : List Nat :=
  (List.range lan.2).map fun i => ((prefixIp ||| lan.1) + i + 1) % 2 ^ 32

theorem mem_addresses {lan : Nat × Nat} {x : Nat} :
    x ∈ addresses lan ↔ ∃ i < lan.2, ((prefixIp ||| lan.1) + i + 1) % 2 ^ 32 = x := by
  simp [addresses]

/-- The word of a LAN only sets bits of the first byte that 10 has, and no host number carries into it. -/
def Clear (lan : Nat × Nat) : Prop :=
  0 < lan.2 → 10 ||| lan.1 / 2 ^ 24 = 10 ∧ lan.1 % 2 ^ 24 + lan.2 < 2 ^ 24

theorem Clear.address {lan : Nat × Nat} (h : Clear lan) {i : Nat} (hi : i < lan.2) :
    ((prefixIp ||| lan.1) + i + 1) % 2 ^ 32 = 2 ^ 24 * 10 + (lan.1 % 2 ^ 24 + i + 1) := by
  obtain ⟨hbyte, hlt⟩ := h (by omega)
  rw [prefixIp_or, hbyte]
  omega

/-- The addresses of a LAN are in the network exactly when its word leaves the first byte alone. -/
theorem forall_addresses_iff {lan : Nat × Nat} (hword : lan.1 < 2 ^ 32) :
    (∀ x ∈ addresses lan, x / 2 ^ 24 = 10) ↔ Clear lan := by
  constructor
  · intro hall hpos
    have hten : (10 : Nat) ≤ 10 ||| lan.1 / 2 ^ 24 := Nat.left_le_or
    have hbyte : lan.1 / 2 ^ 24 < 2 ^ 8 := by omega
    have hless : 10 ||| lan.1 / 2 ^ 24 < 2 ^ 8 := Nat.or_lt_two_pow (by omega) hbyte
    have hmod : lan.1 % 2 ^ 24 < 2 ^ 24 := Nat.mod_lt _ (by omega)
    -- the first interface shows the first byte
    have heq : 10 ||| lan.1 / 2 ^ 24 = 10 := by
      have hfirst := hall _ (mem_addresses.mpr ⟨0, hpos, rfl⟩)
      rw [prefixIp_or] at hfirst
      omega
    refine ⟨heq, ?_⟩
    by_contra hnot
    -- the first host number that carries
    obtain ⟨i, hi⟩ : ∃ i, lan.1 % 2 ^ 24 + i + 1 = 2 ^ 24 := ⟨2 ^ 24 - 1 - lan.1 % 2 ^ 24, by omega⟩
    have hcarry := hall _ (mem_addresses.mpr ⟨i, by omega, rfl⟩)
    rw [prefixIp_or, heq] at hcarry
    omega
  · intro hclear x hx
    obtain ⟨i, hi, rfl⟩ := mem_addresses.mp hx
    have hlt := (hclear (by omega)).2
    rw [hclear.address hi]
    omega

theorem Clear.nodup {lan : Nat × Nat} (h : Clear lan) : (addresses lan).Nodup := by
  rw [addresses, nodup_map_iff_inj_on nodup_range]
  intro i hi j hj heq
  rw [h.address (mem_range.mp hi), h.address (mem_range.mp hj)] at heq
  omega

/-- Two words do not agree behind the first byte, if both LANs have interfaces. -/
def Apart (lan lan' : Nat × Nat) : Prop :=
  0 < lan.2 → 0 < lan'.2 → lan.1 % 2 ^ 24 ≠ lan'.1 % 2 ^ 24

/-- Two multiples of a power of two that differ behind the first byte differ by that power. -/
theorem add_le_of_ne {hosts x y : Nat} (hx : 2 ^ hosts ∣ x) (hy : 2 ^ hosts ∣ y)
    (hlt : x % 2 ^ 24 < y % 2 ^ 24) : x % 2 ^ 24 + 2 ^ hosts ≤ y % 2 ^ 24 := by
  by_cases hle : hosts ≤ 24
  · have hx' : 2 ^ hosts ∣ x % 2 ^ 24 := (Nat.dvd_mod_iff (pow_dvd_pow 2 hle)).mpr hx
    have hy' : 2 ^ hosts ∣ y % 2 ^ 24 := (Nat.dvd_mod_iff (pow_dvd_pow 2 hle)).mpr hy
    obtain ⟨i, hi⟩ := hx'
    obtain ⟨j, hj⟩ := hy'
    rw [hi, hj] at hlt ⊢
    have hij : i < j := Nat.lt_of_mul_lt_mul_left hlt
    calc 2 ^ hosts * i + 2 ^ hosts = 2 ^ hosts * (i + 1) := by ring
      _ ≤ 2 ^ hosts * j := Nat.mul_le_mul_left _ hij
  · -- a field that is longer leaves nothing behind the first byte
    have hzero : y % 2 ^ 24 = 0 := Nat.mod_eq_zero_of_dvd ((pow_dvd_pow 2 (by omega)).trans hy)
    omega

/-- Two LANs have no address in common exactly when their words differ behind the first byte. -/
theorem disjoint_addresses_iff {hosts : Nat} {lan lan' : Nat × Nat} (hclear : Clear lan)
    (hclear' : Clear lan') (hdvd : 2 ^ hosts ∣ lan.1) (hdvd' : 2 ^ hosts ∣ lan'.1)
    (hfits : lan.2 + 2 ≤ 2 ^ hosts) (hfits' : lan'.2 + 2 ≤ 2 ^ hosts) :
    (addresses lan).Disjoint (addresses lan') ↔ Apart lan lan' := by
  constructor
  · intro hdisjoint hpos hpos' heq
    refine hdisjoint (mem_addresses.mpr ⟨0, hpos, rfl⟩) (mem_addresses.mpr ⟨0, hpos', ?_⟩)
    rw [hclear.address hpos, hclear'.address hpos', heq]
  · intro hapart x hx hx'
    obtain ⟨i, hi, rfl⟩ := mem_addresses.mp hx
    obtain ⟨j, hj, heq⟩ := mem_addresses.mp hx'
    rw [hclear.address hi, hclear'.address hj] at heq
    rcases Nat.lt_or_gt_of_ne (hapart (by omega) (by omega)) with hlt | hlt
    · have := add_le_of_ne hdvd hdvd' hlt
      omega
    · have := add_le_of_ne hdvd' hdvd hlt
      omega

theorem sound_addresses_iff {hosts : Nat} {lans : List (Nat × Nat)}
    (hword : ∀ lan ∈ lans, lan.1 < 2 ^ 32) (hdvd : ∀ lan ∈ lans, 2 ^ hosts ∣ lan.1)
    (hfits : ∀ lan ∈ lans, lan.2 + 2 ≤ 2 ^ hosts) :
    ((∀ x ∈ lans.flatMap addresses, x / 2 ^ 24 = 10) ∧ (lans.flatMap addresses).Nodup) ↔
      (∀ lan ∈ lans, Clear lan) ∧ lans.Pairwise Apart := by
  have hinside : (∀ x ∈ lans.flatMap addresses, x / 2 ^ 24 = 10) ↔ ∀ lan ∈ lans, Clear lan := by
    constructor
    · intro hall lan hlan
      exact (forall_addresses_iff (hword lan hlan)).mp fun x hx =>
        hall x (mem_flatMap.mpr ⟨lan, hlan, hx⟩)
    · intro hclear x hx
      obtain ⟨lan, hlan, hx⟩ := mem_flatMap.mp hx
      exact (forall_addresses_iff (hword lan hlan)).mpr (hclear lan hlan) x hx
  rw [hinside]
  refine and_congr_right fun hclear => ?_
  rw [nodup_flatMap]
  constructor
  · rintro ⟨-, hdisjoint⟩
    refine hdisjoint.imp_of_mem ?_
    intro lan lan' hlan hlan' h
    exact (disjoint_addresses_iff (hclear lan hlan) (hclear lan' hlan') (hdvd lan hlan)
      (hdvd lan' hlan') (hfits lan hlan) (hfits lan' hlan')).mp h
  · intro hapart
    refine ⟨fun lan hlan => (hclear lan hlan).nodup, hapart.imp_of_mem ?_⟩
    intro lan lan' hlan hlan' h
    exact (disjoint_addresses_iff (hclear lan hlan) (hclear lan' hlan') (hdvd lan hlan)
      (hdvd lan' hlan') (hfits lan hlan) (hfits lan' hlan')).mpr h

/-! ## Section 5: The fields of a LAN -/

/-- The LANs with the counters that they find. -/
def numbered : (counter : Nat → Nat) → List Lan → List (Lan × Nat)
  | _, [] => []
  | counter, pos :: rest => (pos, counter pos.partition) ::
      numbered (Function.update counter pos.partition (counter pos.partition + 1)) rest

/-- The address that a LAN gets. -/
def ipOf (w : Widths) (lan : Lan × Nat) : Nat :=
  prefixIp ||| lan.1.partition <<< (w.lans + w.hosts).toNat % 2 ^ 32 ||| lan.2 <<< w.hosts.toNat % 2 ^ 32

/-- The fields of a LAN behind the first byte. -/
def word (w : Widths) (lan : Lan × Nat) : Nat :=
  lan.1.partition * 2 ^ (w.lans + w.hosts).toNat + lan.2 * 2 ^ w.hosts.toNat

/-- The word of a LAN, and the number of its interfaces. -/
def fields (w : Widths) (lan : Lan × Nat) : Nat × Nat := (word w lan, lan.1.nodes.length)

section

variable {counter : Nat → Nat} {lans : List Lan} {w : Widths} {numPartitions : Nat}

@[simp] theorem map_fst_numbered : (numbered counter lans).map Prod.fst = lans := by
  induction lans generalizing counter with
  | nil => rfl
  | cons pos rest ih => rw [numbered, map_cons, ih]

theorem mem_of_mem_numbered {lan : Lan × Nat} (h : lan ∈ numbered counter lans) : lan.1 ∈ lans := by
  have hmem := mem_map_of_mem (f := Prod.fst) h
  rwa [map_fst_numbered] at hmem

theorem numbered_bounds {lan : Lan × Nat} (h : lan ∈ numbered counter lans) : counter lan.1.partition ≤ lan.2 ∧
      lan.2 < counter lan.1.partition + (lans.map (·.partition)).count lan.1.partition := by
  induction lans generalizing counter with
  | nil => cases h
  | cons pos rest ih =>
    rw [map_cons]
    rcases mem_cons.mp h with rfl | h
    · dsimp only
      rw [count_cons_self]
      omega
    · -- the LAN at the front has taken a number of its partition
      have hrest := ih h
      by_cases hsame : lan.1.partition = pos.partition
      · rw [hsame, Function.update_self] at hrest
        rw [hsame, count_cons_self]
        omega
      · rw [Function.update_of_ne hsame] at hrest
        rw [count_cons_of_ne (Ne.symm hsame)]
        exact hrest

theorem numbered_pairwise : (numbered counter lans).Pairwise fun lan lan' =>
    lan.1.partition = lan'.1.partition → lan.2 < lan'.2 := by
  induction lans generalizing counter with
  | nil => exact List.Pairwise.nil
  | cons pos rest ih =>
    refine pairwise_cons.mpr ⟨?_, ih⟩
    intro lan hlan hsame
    have hbound := (numbered_bounds hlan).1
    rw [← hsame, Function.update_self] at hbound
    exact hbound

theorem shift_eq (x : Nat) (n : Int) : shift x n =
    if 0 ≤ n ∧ n < 32 then .ok (x <<< n.toNat % 2 ^ 32) else .error .undefined := by
  unfold shift shiftLeft
  by_cases hn : 0 ≤ n ∧ n < 32
  · rw [if_pos hn, if_pos (by exact_mod_cast hn)]
  · rw [if_neg hn, if_neg (by exact_mod_cast hn)]

theorem assignLans_ok (hlans : 0 ≤ w.lans) (hhosts : 0 ≤ w.hosts) (hshift : w.lans + w.hosts < 32)
    (hrange : ∀ lan ∈ lans, lan.partition < numPartitions) :
    assignLans w numPartitions counter lans =
      .ok ((numbered counter lans).map fun lan => { lan.1 with ip := ipOf w lan }) := by
  induction lans generalizing counter with
  | nil => rfl
  | cons pos rest ih =>
    have hrest := fun lan hlan => hrange lan (mem_cons_of_mem pos hlan)
    rw [assignLans, if_pos (hrange pos (by simp)), shift_eq, if_pos ⟨by omega, hshift⟩, shift_eq,
      if_pos ⟨hhosts, by omega⟩, ih hrest]
    rfl

/-- Without a counter for a partition, or with a shift by the width, anything may happen. -/
theorem assignLans_undefined (hbad : (∃ lan ∈ lans, numPartitions ≤ lan.partition) ∨
    lans ≠ [] ∧ 32 ≤ w.lans + w.hosts) : assignLans w numPartitions counter lans = .error .undefined := by
  induction lans generalizing counter with
  | nil =>
    rcases hbad with ⟨lan, hlan, -⟩ | ⟨hne, -⟩
    · cases hlan
    · exact absurd rfl hne
  | cons pos rest ih =>
    rw [assignLans]
    split
    · next hrange =>
      rw [shift_eq]
      split
      · next hnetwork =>
        rw [shift_eq]
        split
        · have hrest : ∃ lan ∈ rest, numPartitions ≤ lan.partition := by
            rcases hbad with ⟨lan, hlan, hle⟩ | ⟨-, hle⟩
            · rcases mem_cons.mp hlan with rfl | hlan
              · omega
              · exact ⟨lan, hlan, hle⟩
            · omega
          rw [ih (Or.inl hrest)]
          rfl
        · rfl
      · rfl
    · rfl

/-- The fields are wide enough for the LANs. -/
structure Wide (network lanBits hosts : Nat) (lans : List (Lan × Nat)) : Prop where
  partition_lt : ∀ lan ∈ lans, lan.1.partition < 2 ^ network
  number_lt : ∀ lan ∈ lans, lan.2 < 2 ^ lanBits
  nodes_le : ∀ lan ∈ lans, lan.1.nodes.length + 2 ≤ 2 ^ hosts

theorem Wide.mono {network lanBits hosts network' lanBits' hosts' : Nat} {lans : List (Lan × Nat)}
    (h : Wide network lanBits hosts lans) (hnetwork : network ≤ network') (hlans : lanBits ≤ lanBits')
    (hhosts : hosts ≤ hosts') : Wide network' lanBits' hosts' lans where
  partition_lt lan hlan :=
    (h.partition_lt lan hlan).trans_le (Nat.pow_le_pow_right (by omega) hnetwork)
  number_lt lan hlan := (h.number_lt lan hlan).trans_le (Nat.pow_le_pow_right (by omega) hlans)
  nodes_le lan hlan := (h.nodes_le lan hlan).trans (Nat.pow_le_pow_right (by omega) hhosts)

variable {network lanBits hosts : Nat} {numbers : List (Lan × Nat)}

theorem word_eq (lan : Lan × Nat) :
    word ⟨network, lanBits, hosts⟩ lan = (lan.1.partition * 2 ^ lanBits + lan.2) * 2 ^ hosts := by
  have hsum : ((lanBits : Int) + hosts).toNat = lanBits + hosts := by omega
  rw [word, hsum, Int.toNat_natCast, pow_add]
  ring

theorem Wide.word_add_le (h : Wide network lanBits hosts numbers) {lan : Lan × Nat} (hlan : lan ∈ numbers) :
    word ⟨network, lanBits, hosts⟩ lan + 2 ^ hosts ≤ 2 ^ (network + lanBits + hosts) := by
  have hpartition := h.partition_lt lan hlan
  have hnumber := h.number_lt lan hlan
  rw [word_eq, pow_add, pow_add, ← Nat.succ_mul]
  refine Nat.mul_le_mul_right _ ?_
  calc lan.1.partition * 2 ^ lanBits + lan.2 + 1 ≤ lan.1.partition * 2 ^ lanBits + 2 ^ lanBits := by omega
    _ = (lan.1.partition + 1) * 2 ^ lanBits := by ring
    _ ≤ 2 ^ network * 2 ^ lanBits := Nat.mul_le_mul_right _ hpartition

/-- The fields do not overlap, so that they make up the word. -/
theorem Wide.ip_eq (h : Wide network lanBits hosts numbers) (hsum : network + lanBits + hosts ≤ 32)
    {lan : Lan × Nat} (hlan : lan ∈ numbers) :
    ipOf ⟨network, lanBits, hosts⟩ lan = prefixIp ||| word ⟨network, lanBits, hosts⟩ lan := by
  have hbits : ((lanBits : Int) + hosts).toNat = lanBits + hosts := by omega
  have hword := h.word_add_le hlan
  have hpow : 2 ^ (network + lanBits + hosts) ≤ 2 ^ 32 := Nat.pow_le_pow_right (by omega) hsum
  have hpos : 0 < 2 ^ hosts := by positivity
  have heq : word ⟨network, lanBits, hosts⟩ lan = 2 ^ (lanBits + hosts) * lan.1.partition + lan.2 * 2 ^ hosts := by
    rw [word_eq, pow_add]
    ring
  have hlow : lan.2 * 2 ^ hosts < 2 ^ (lanBits + hosts) := by
    rw [pow_add]
    exact Nat.mul_lt_mul_of_pos_right (h.number_lt lan hlan) hpos
  rw [ipOf, hbits, Int.toNat_natCast, Nat.shiftLeft_eq, Nat.shiftLeft_eq, Nat.mul_comm lan.1.partition]
  -- no bit is lost by the shifts, and the number is below the partition
  rw [Nat.mod_eq_of_lt (by omega), Nat.mod_eq_of_lt (by omega), Nat.or_assoc,
    ← Nat.two_pow_add_eq_or_of_lt hlow, ← heq]

theorem Wide.clear (h : Wide network lanBits hosts numbers) (hsum : network + lanBits + hosts ≤ 24)
    (hnumbers : numbers.Pairwise fun lan lan' => lan.1.partition = lan'.1.partition → lan.2 < lan'.2) :
    (∀ lan ∈ numbers, Clear (fields ⟨network, lanBits, hosts⟩ lan)) ∧
      numbers.Pairwise fun lan lan' => Apart (fields ⟨network, lanBits, hosts⟩ lan)
        (fields ⟨network, lanBits, hosts⟩ lan') := by
  have hpow : 2 ^ (network + lanBits + hosts) ≤ 2 ^ 24 := Nat.pow_le_pow_right (by omega) hsum
  have hpos : 0 < 2 ^ hosts := by positivity
  have hword : ∀ lan ∈ numbers, word ⟨network, lanBits, hosts⟩ lan + 2 ^ hosts ≤ 2 ^ 24 :=
    fun lan hlan => (h.word_add_le hlan).trans hpow
  constructor
  · intro lan hlan _
    have hle := hword lan hlan
    have hnodes := h.nodes_le lan hlan
    have hzero : word ⟨network, lanBits, hosts⟩ lan / 2 ^ 24 = 0 := Nat.div_eq_of_lt (by omega)
    rw [fields, hzero, Nat.mod_eq_of_lt (by omega)]
    exact ⟨rfl, by omega⟩
  · refine hnumbers.imp_of_mem ?_
    intro lan lan' hlan hlan' hless _ _ heq
    have hle := hword lan hlan
    have hle' := hword lan' hlan'
    simp only [fields] at heq
    rw [Nat.mod_eq_of_lt (by omega), Nat.mod_eq_of_lt (by omega), word_eq, word_eq] at heq
    have hparts := Nat.eq_of_mul_eq_mul_right hpos heq
    have hnumber := h.number_lt lan hlan
    have hnumber' := h.number_lt lan' hlan'
    -- the partition and the number can be read off the word
    have hpartition : lan.1.partition = lan'.1.partition := by
      have hdiv := congrArg (· / 2 ^ lanBits) hparts
      have hbits : 0 < 2 ^ lanBits := by positivity
      simpa only [Nat.mul_comm _ (2 ^ lanBits), Nat.mul_add_div hbits, Nat.div_eq_of_lt hnumber,
        Nat.div_eq_of_lt hnumber', Nat.add_zero] using hdiv
    have hlt := hless hpartition
    rw [hpartition] at hparts
    omega

end

/-! ## Section 6: The LANs that were added -/

section

variable {lans : List Lan} {labels : List Nat}

theorem map_partition_setPartitions (h : labels.length = lans.length) :
    (setPartitions lans labels).map (·.partition) = labels := by
  induction lans generalizing labels with
  | nil => rw [eq_nil_of_length_eq_zero h]; rfl
  | cons lan lans ih =>
    cases labels with
    | nil => simp at h
    | cons label labels =>
      rw [setPartitions, map_cons, ih (Nat.succ.inj h)]

theorem map_nodes_setPartitions : (setPartitions lans labels).map (·.nodes) = lans.map (·.nodes) := by
  induction lans generalizing labels with
  | nil => cases labels <;> rfl
  | cons lan lans ih =>
    cases labels with
    | nil => rfl
    | cons label labels => rw [setPartitions, map_cons, map_cons, ih]

theorem length_le_largestLan (added : List (Int × List Nat)) :
    ∀ nodes ∈ (addLans added).lanList.map (·.nodes), nodes.length ≤ (addLans added).largestLan := by
  unfold addLans
  induction added using List.reverseRecOn with
  | nil => simp [new]
  | append_singleton added lan ih =>
    rw [foldl_append, foldl_cons, foldl_nil]
    intro nodes hnodes
    simp only [addLan, map_append, map_cons, map_nil, mem_append, mem_singleton] at hnodes ⊢
    rcases hnodes with hnodes | rfl
    · exact (ih nodes hnodes).trans (le_max_left _ _)
    · exact le_max_right _ _

theorem length_indexes (a : ConservativeAssigner) :
    (Graph.convert a.graphData).indexes.length - 1 = a.lanList.length := by
  rw [(Graph.convert_eq _).2]
  simp [graphData]

end

/-! ## Section 7: The widths -/

section

variable {log2 : Nat → Nat} {p : Partitioning}

theorem getBits_of_pos {num : Nat} (h : 0 < num) : getBits log2 num = log2 num :=
  if_neg (by omega)

theorem getLanBits_spec (hlog2 : ∀ num, num ≤ 2 ^ log2 num) (hne : p.labels ≠ [])
    (hrange : ∀ label ∈ p.labels, label < p.count) :
    ∃ lanBits : Nat, getLanBits log2 p = lanBits ∧ ∀ label ∈ p.labels, p.labels.count label ≤ 2 ^ lanBits := by
  obtain ⟨first, hfirst⟩ := exists_mem_of_ne_nil _ hne
  have hcounts : ∀ label ∈ p.labels,
      p.labels.count label ∈ (List.range p.count).map fun i => p.labels.count i := by
    intro label hlabel
    exact mem_map.mpr ⟨label, mem_range.mpr (hrange label hlabel), rfl⟩
  obtain ⟨maxPos, hmax⟩ := Option.isSome_iff_exists.mp (isSome_max?_of_mem (hcounts first hfirst))
  have hle : ∀ label ∈ p.labels, p.labels.count label ≤ maxPos := fun label hlabel =>
    (List.max?_le_iff hmax).mp (le_refl _) _ (hcounts label hlabel)
  have hpos : 0 < maxPos := (count_pos_iff.mpr hfirst).trans_le (hle first hfirst)
  refine ⟨log2 maxPos, ?_, fun label hlabel => (hle label hlabel).trans (hlog2 maxPos)⟩
  rw [getLanBits, hmax]
  exact getBits_of_pos hpos

theorem wide_widths (hlog2 : ∀ num, num ≤ 2 ^ log2 num) {lans : List Lan} {largestLan : Nat}
    (hlabels : lans.map (·.partition) = p.labels) (hne : lans ≠ [])
    (hrange : ∀ lan ∈ lans, lan.partition < p.count)
    (hlargest : ∀ nodes ∈ lans.map (·.nodes), nodes.length ≤ largestLan) :
    ∃ network lanBits hosts : Nat, widths log2 largestLan p = ⟨network, lanBits, hosts⟩ ∧
      Wide network lanBits hosts (numbered (fun _ => 0) lans) := by
  have hlabelsRange : ∀ label ∈ p.labels, label < p.count := by
    intro label hlabel
    rw [← hlabels] at hlabel
    obtain ⟨lan, hlan, rfl⟩ := mem_map.mp hlabel
    exact hrange lan hlan
  have hlabelsNe : p.labels ≠ [] := by
    rw [← hlabels]
    simpa using hne
  obtain ⟨lanBits, hlanBits, hcount⟩ := getLanBits_spec hlog2 hlabelsNe hlabelsRange
  obtain ⟨first, hfirst⟩ := exists_mem_of_ne_nil _ hne
  have hpos : 0 < p.count := Nat.zero_lt_of_lt (hrange first hfirst)
  refine ⟨log2 p.count, lanBits, log2 (largestLan + 2), ?_, ?_⟩
  · rw [widths, hlanBits, getBits_of_pos hpos, getBits_of_pos (by omega), if_neg (by omega)]
  · constructor
    · intro lan hlan
      exact (hrange lan.1 (mem_of_mem_numbered hlan)).trans_le (hlog2 p.count)
    · intro lan hlan
      have hmem : lan.1.partition ∈ p.labels := by
        rw [← hlabels]
        exact mem_map_of_mem (mem_of_mem_numbered hlan)
      have hbound := (numbered_bounds hlan).2
      rw [hlabels] at hbound
      have hle := hcount _ hmem
      omega
    · intro lan hlan
      have hle := hlargest _ (mem_map_of_mem (mem_of_mem_numbered hlan))
      calc lan.1.nodes.length + 2 ≤ largestLan + 2 := by omega
        _ ≤ 2 ^ log2 (largestLan + 2) := hlog2 _

end

/-! ## Section 8: When the addresses are sound -/

/-- The fields fit behind the first byte, or are not used up to where they do not: then no LAN
    sets a bit of the first byte that 10 has not, and no two LANs agree behind it. -/
def Fits (w : Widths) (numPartitions : Nat) (lans : List Lan) : Prop :=
  (∀ lan ∈ lans, lan.partition < numPartitions) ∧ (w.network ≤ 8 ∧ w.lans ≤ 8 ∧ w.hosts ≤ 8 ∨ w.sum ≤ 24 ∨
      (∀ lan ∈ lans, w.lans + w.hosts < 32) ∧ (∀ lan ∈ numbered (fun _ => 0) lans, Clear (fields w lan)) ∧
        (numbered (fun _ => 0) lans).Pairwise fun lan lan' => Apart (fields w lan) (fields w lan'))

section

variable {a : ConservativeAssigner} {w : Widths} {numPartitions : Nat}

theorem addresses_print {lans : List (Lan × Nat)}
    (hlans : a.lanList = lans.map fun lan => { lan.1 with ip := ipOf w lan })
    (hip : ∀ lan ∈ lans, ipOf w lan = prefixIp ||| word w lan) :
    a.print.map (·.2.2) = (lans.map (fields w)).flatMap addresses := by
  rw [print, hlans, map_flatMap, flatMap_map, flatMap_map]
  refine flatMap_congr ?_
  intro lan hlan
  have hrange : List.range lan.1.nodes.length = lan.1.nodes.zipIdx.map Prod.snd := by
    rw [zipIdx_map_snd, range_eq_range']
  rw [addresses, fields, hrange, map_map, map_map, hip lan hlan]
  rfl

theorem sound_iff : a.Sound ↔ (∀ x ∈ a.print.map (·.2.2), x / 2 ^ 24 = 10) ∧ (a.print.map (·.2.2)).Nodup := by
  rw [Sound, forall_mem_map]

variable {network lanBits hosts : Nat}

/-- With the widths that are used at last, the assignment is safe exactly when the words of the
    LANs are clear and apart. -/
theorem safe_assignNumbers (hw : w.readable = ⟨network, lanBits, hosts⟩) (hsum : network + lanBits + hosts ≤ 32)
    (hwide : Wide network lanBits hosts (numbered (fun _ => 0) a.lanList))
    (hrange : ∀ lan ∈ a.lanList, lan.partition < numPartitions) :
    Safe (assignNumbers a w numPartitions) ↔ (∀ lan ∈ a.lanList, lanBits + hosts < 32) ∧
      (∀ lan ∈ numbered (fun _ => 0) a.lanList, Clear (fields ⟨network, lanBits, hosts⟩ lan)) ∧
      (numbered (fun _ => 0) a.lanList).Pairwise fun lan lan' =>
        Apart (fields ⟨network, lanBits, hosts⟩ lan) (fields ⟨network, lanBits, hosts⟩ lan') := by
  by_cases hshift : lanBits + hosts < 32
  · have hword : ∀ lan ∈ (numbered (fun _ => 0) a.lanList).map (fields ⟨network, lanBits, hosts⟩),
        lan.1 < 2 ^ 32 ∧ 2 ^ hosts ∣ lan.1 ∧ lan.2 + 2 ≤ 2 ^ hosts := by
      rw [forall_mem_map]
      intro lan hlan
      have hle := hwide.word_add_le hlan
      have hpow : 2 ^ (network + lanBits + hosts) ≤ 2 ^ 32 := Nat.pow_le_pow_right (by omega) hsum
      have hpos : 0 < 2 ^ hosts := by positivity
      refine ⟨?_, ?_, hwide.nodes_le lan hlan⟩
      · rw [fields]
        omega
      · rw [fields, word_eq]
        exact Nat.dvd_mul_left _ _
    have hassign : assignLans ⟨network, lanBits, hosts⟩ numPartitions (fun _ => 0) a.lanList =
        .ok ((numbered (fun _ => 0) a.lanList).map fun lan =>
          { lan.1 with ip := ipOf ⟨network, lanBits, hosts⟩ lan }) :=
      assignLans_ok (by simp) (by simp) (by show (lanBits : Int) + hosts < 32; omega) hrange
    have hlt : (∀ lan ∈ a.lanList, lanBits + hosts < 32) ↔ True := iff_true_intro fun _ _ => hshift
    rw [assignNumbers, hw, hassign, hlt, true_and]
    show Sound _ ↔ _
    rw [sound_iff, addresses_print rfl fun lan hlan => hwide.ip_eq hsum hlan,
      sound_addresses_iff (fun lan hlan => (hword lan hlan).1) (fun lan hlan => (hword lan hlan).2.1)
        fun lan hlan => (hword lan hlan).2.2, forall_mem_map, pairwise_map]
  · -- the shift is by the width, if there is anything to shift
    cases hlist : a.lanList with
    | nil => simp [assignNumbers, hlist, assignLans, numbered, Safe, sound_iff, print]
    | cons first rest =>
      have hundefined : assignLans w.readable numPartitions (fun _ => 0) a.lanList = .error .undefined := by
        refine assignLans_undefined (Or.inr ⟨by rw [hlist]; simp, ?_⟩)
        rw [hw]
        show (32 : Int) ≤ lanBits + hosts
        omega
      have hsafe : ¬ Safe (assignNumbers a w numPartitions) := by
        rw [assignNumbers, hundefined]
        exact id
      constructor
      · intro h
        exact absurd h hsafe
      · rintro ⟨hlt, -⟩
        exact absurd (hlt first (by simp)) hshift

theorem not_safe_of_partition (h : ∃ lan ∈ a.lanList, numPartitions ≤ lan.partition) :
    ¬ Safe (assignNumbers a w numPartitions) := by
  rw [assignNumbers, assignLans_undefined (Or.inl h)]
  exact id

theorem safe_of_sum_le (hw : w.readable = ⟨network, lanBits, hosts⟩) (hsum : network + lanBits + hosts ≤ 24)
    (hwide : Wide network lanBits hosts (numbered (fun _ => 0) a.lanList))
    (hrange : ∀ lan ∈ a.lanList, lan.partition < numPartitions) : Safe (assignNumbers a w numPartitions) := by
  rw [safe_assignNumbers hw (by omega) hwide hrange]
  exact ⟨fun _ _ => by omega, hwide.clear hsum numbered_pairwise⟩

/-- An assignment is safe exactly when the fields fit. -/
theorem safe_iff_fits {log2 : Nat → Nat} {p : Partitioning}
    (hlog2 : ∀ num, num ≤ 2 ^ log2 num) (hlabels : a.lanList.map (·.partition) = p.labels)
    (hlargest : ∀ nodes ∈ a.lanList.map (·.nodes), nodes.length ≤ a.largestLan)
    (hsum : (widths log2 a.largestLan p).sum ≤ 32) :
    Safe (assignNumbers a (widths log2 a.largestLan p) p.count) ↔
      Fits (widths log2 a.largestLan p) p.count a.lanList := by
  by_cases hrange : ∀ lan ∈ a.lanList, lan.partition < p.count
  swap
  · -- a LAN has no counter
    push Not at hrange
    constructor
    · intro h
      exact absurd h (not_safe_of_partition hrange)
    · rintro ⟨hfits, -⟩
      obtain ⟨lan, hlan, hle⟩ := hrange
      exact absurd (hfits lan hlan) (by omega)
  cases hlist : a.lanList with
  | nil => simp [assignNumbers, hlist, assignLans, numbered, Safe, sound_iff, print, Fits]
  | cons first rest =>
    have hne : a.lanList ≠ [] := by
      rw [hlist]
      simp
    rw [← hlist]
    obtain ⟨network, lanBits, hosts, hw, hwide⟩ := wide_widths hlog2 hlabels hne hrange hlargest
    rw [hw] at hsum ⊢
    simp only [Widths.sum] at hsum
    by_cases hsmall : (network : Int) ≤ 8 ∧ (lanBits : Int) ≤ 8 ∧ (hosts : Int) ≤ 8
    · -- the boundaries are made readable
      have hreadable : Widths.readable ⟨network, lanBits, hosts⟩ = ⟨(8 : Nat), (8 : Nat), (8 : Nat)⟩ :=
        if_pos hsmall
      have hwide8 : Wide 8 8 8 (numbered (fun _ => 0) a.lanList) :=
        hwide.mono (by omega) (by omega) (by omega)
      exact iff_of_true (safe_of_sum_le hreadable (by omega) hwide8 hrange) ⟨hrange, Or.inl hsmall⟩
    · have hreadable : Widths.readable ⟨network, lanBits, hosts⟩ = ⟨network, lanBits, hosts⟩ :=
        if_neg hsmall
      have hwords := safe_assignNumbers hreadable (by omega) hwide hrange
      constructor
      · intro h
        obtain ⟨hshift, hwords⟩ := hwords.mp h
        refine ⟨hrange, Or.inr (Or.inr ⟨?_, hwords⟩)⟩
        intro lan hlan
        show (lanBits : Int) + hosts < 32
        exact_mod_cast hshift lan hlan
      · rintro ⟨-, hall8 | h24 | ⟨hshift, hapart⟩⟩
        · exact absurd hall8 hsmall
        · simp only [Widths.sum] at h24
          exact safe_of_sum_le hreadable (by omega) hwide hrange
        · refine hwords.mpr ⟨?_, hapart⟩
          intro lan hlan
          have hlt : (lanBits : Int) + hosts < 32 := hshift lan hlan
          omega

end

theorem ipAssign_of_le {log2 : Nat → Nat} {partition : Graph → Partitioning}
    {a : ConservativeAssigner} {p : Partitioning} {w : Widths}
    (hp : partition (Graph.convert a.graphData) = p) (hw : widths log2 a.largestLan p = w)
    (hsum : ¬ (w.sum ≤ 0 ∨ w.sum > totalBits)) :
    ipAssign log2 partition a =
      assignNumbers { a with lanList := setPartitions a.lanList p.labels } w p.count := by
  show (checkBitOverflow (widths log2 a.largestLan (partition (Graph.convert a.graphData))).sum >>=
    fun _ => _) = _
  rw [hp, hw, checkBitOverflow, if_neg hsum]
  rfl

/-- LANs that are added get safe addresses, or none, exactly when the widths are refused or the
    fields fit. The logarithm is only relied on for widths that can hold their number, and the
    partitioner for a label for every vertex. -/
theorem ipAssign_safe_iff {log2 : Nat → Nat} {partition : Graph → Partitioning} (hlog2 : ∀ num, num ≤ 2 ^ log2 num)
    (hlabels : ∀ graph, (partition graph).labels.length = graph.indexes.length - 1)
    (added : List (Int × List Nat)) :
    let a := addLans added
    let p := partition (Graph.convert a.graphData)
    let w := widths log2 a.largestLan p
    Safe (ipAssign log2 partition a) ↔
      w.sum ≤ 0 ∨ 32 < w.sum ∨ Fits w p.count (setPartitions a.lanList p.labels) := by
  intro a p w
  have hlength : p.labels.length = a.lanList.length := by
    rw [hlabels, length_indexes]
  by_cases hbad : w.sum ≤ 0 ∨ w.sum > totalBits
  · -- the widths are refused
    have hassign : ipAssign log2 partition a = .error .bitOverflow := by
      show (checkBitOverflow w.sum >>= fun _ => _) = _
      rw [checkBitOverflow, if_pos hbad]
      rfl
    rw [hassign]
    refine iff_of_true trivial ?_
    rcases hbad with hle | hlt
    · exact Or.inl hle
    · exact Or.inr (Or.inl hlt)
  · have hfits := safe_iff_fits (a := { a with lanList := setPartitions a.lanList p.labels }) hlog2
      (map_partition_setPartitions hlength)
      (by
        rw [map_nodes_setPartitions]
        exact length_le_largestLan added)
      (not_lt.mp fun hlt => hbad (Or.inr hlt))
    rw [ipAssign_of_le rfl rfl hbad, hfits]
    constructor
    · intro h
      exact Or.inr (Or.inr h)
    · rintro (hle | hlt | h)
      · exact absurd (Or.inl hle) hbad
      · exact absurd (Or.inr hlt) hbad
      · exact h

/-- The logarithm of a number to the base 2, rounded up. -/
def roundedLog (num : Nat) : Nat := if num ≤ 1 then 0 else (num - 1).log2 + 1

theorem le_two_pow_roundedLog (num : Nat) : num ≤ 2 ^ roundedLog num := by
  unfold roundedLog
  split
  · simpa
  · have hlt : num - 1 < 2 ^ ((num - 1).log2 + 1) := Nat.lt_log2_self
    omega

/-- A partitioner that does not divide. -/
def undivided (graph : Graph) : Partitioning := ⟨1, List.replicate (graph.indexes.length - 1) 0⟩

theorem ipAssign_safe_two : Safe (ipAssign roundedLog undivided (addLans [(1, [0, 1]), (1, [1, 2])])) :=
  (ipAssign_safe_iff le_two_pow_roundedLog (fun _ => length_replicate) _).mpr
    (Or.inr (Or.inr ⟨by decide +kernel, Or.inl (by decide +kernel)⟩))

/-- A host with interfaces in 33 LANs, the first of which is large, and 32 LANs by themselves. -/
def crowded : List (Int × List Nat) :=
  (1, List.range 4095) :: (List.replicate 32 (1, [0]) ++ (List.range 32).map fun i => (1, [5000 + i]))

/-- The connected LANs are one partition, and every other LAN is one. -/
def crowdedLabels : Partitioning := ⟨33, List.replicate 33 0 ++ List.range' 1 32⟩

/-- The widths are 6, 6 and 13 bits, and the last LAN gets 11.0.0.0. -/
theorem fields_reach_first_byte : ¬ Safe (ipAssign roundedLog (fun _ => crowdedLabels) (addLans crowded)) := by
  have hwidths : widths roundedLog (addLans crowded).largestLan crowdedLabels = ⟨6, 6, 13⟩ := by
    decide +kernel
  have hlast : (assignLans ⟨6, 6, 13⟩ crowdedLabels.count (fun _ => 0)
      (setPartitions (addLans crowded).lanList crowdedLabels.labels)).map
        (fun lans => lans.getLast?.map fun lan => (lan.nodes, lan.ip)) =
      .ok (some ([5031], 11 * 2 ^ 24)) := by
    decide +kernel
  have hreadable : Widths.readable ⟨6, 6, 13⟩ = ⟨6, 6, 13⟩ := by decide
  rw [ipAssign_of_le rfl hwidths (by decide), assignNumbers, hreadable]
  cases hlans : assignLans ⟨6, 6, 13⟩ crowdedLabels.count (fun _ => 0)
      (setPartitions (addLans crowded).lanList crowdedLabels.labels) with
  | error failure =>
    rw [hlans] at hlast
    cases hlast
  | ok lans =>
    rw [hlans] at hlast
    obtain ⟨lan, hlan, hip⟩ := Option.map_eq_some_iff.mp (Except.ok.inj hlast)
    obtain ⟨hnodes, hip⟩ := Prod.mk.inj hip
    intro hsafe
    have hline : (lan.number, 5031, 11 * 2 ^ 24 + 1) ∈
        lan.nodes.zipIdx.map fun (node, i) => (lan.number, node, (lan.ip + i + 1) % 2 ^ 32) := by
      rw [hnodes, hip]
      exact mem_cons_self
    have hten : (11 * 2 ^ 24 + 1) / 2 ^ 24 = 10 :=
      hsafe.1 _ (mem_flatMap.mpr ⟨lan, mem_of_getLast? hlan, hline⟩)
    exact absurd hten (by decide)

end ConservativeAssigner

end Emulab.Ipassign
