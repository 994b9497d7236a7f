import Emulab.Ns.Address

/-! # Addresses for the ports of links and LANs

  `Simulator run` calls `fill_ips` of every link and LAN, in the order of a
  hash table. `fill_ips` takes the subnet of the addresses that the user gave,
  or asks the simulator for one, and then hands out addresses one after the
  other. Nodes are local and no LAN is bridged to another.

  An error is `none`: `perror` sets `errors`, and nothing resets it.
-/

namespace Emulab.Ns

variable {Node Lan : Type} [DecidableEq Node] [DecidableEq Lan]

/-! ## State -/

/-- The entries of `iplist`, `ipaliaslist` and `wantipaliaslist` for a port. -/
structure Port where
  ip : Text := []
  ipaliases : List Text := []
  wantipaliases : Nat := 0
  deriving DecidableEq, Repr

structure LanLink (Node : Type) where
  netmask : Text := "255.255.255.0".toList
  /-- Pairs of a node and a port of it. -/
  nodelist : List (Node × Nat)
  usedIps : List Text := []
  ipcounters : Nat → Option Nat := fun _ => none

/-- `subnet_base`: one octet, such as 10, or two, such as 192.168. -/
inductive SubnetBase where
  | one (a : Fin 256)
  | two (a b : Fin 256)

structure Simulator (Node Lan : Type) where
  subnetBase : SubnetBase
  /-- The mask of every subnet in use. -/
  subnets : List (Nat × Nat) := []
  port : Node × Nat → Port
  lanlink : Lan → LanLink Node
  /-- What `subnet` was at the end of each `fill_ips`. -/
  taken : List (Lan × Nat) := []

def Port.addresses (p : Port) : List Text := (if p.ip = [] then [] else [p.ip]) ++ p.ipaliases

/-! ## What the NS file sets -/

/-- `set-ip`, for a port that `find_port` found -/
def setIp (p : Port) (ip : Text) : Option Port :=
  if IP ip then some { p with ip := ip } else none

/-- `add-ipalias` -/
def addIpalias (p : Port) (ip : Text) : Option Port :=
  if IP ip then some { p with ipaliases := p.ipaliases ++ [ip] } else none

/-- `request-ipaliases`; the bound is `MAX_NODEPORT_IPALIASES`. -/
def requestIpaliases (p : Port) (count : Nat) : Option Port :=
  if 10 < count then none else some { p with wantipaliases := count }

/-- The checks of `tb-set-netmask` -/
def AcceptsNetmask (netmask : Text) : Prop :=
  IP netmask ∧ ∀ n ∈ inetAtohl netmask, n &&& 0xFFFF0000 = 0xFFFF0000

instance (netmask : Text) : Decidable (AcceptsNetmask netmask) := inferInstanceAs (Decidable (_ ∧ _))

/-- `tb-set-netmask` -/
def tbSetNetmask (lanlink : LanLink Node) (netmask : Text) : Option (LanLink Node) :=
  if AcceptsNetmask netmask then some { lanlink with netmask := netmask } else none

def Port.Accepted (p : Port) : Prop := ∀ ip ∈ p.addresses, IP ip

/-! ## Subnets -/

def useSubnet (subnets : List (Nat × Nat)) (subnet netmask : Text) : Option (List (Nat × Nat)) := do
  let subnetint ← inetAtohl subnet
  let netmaskint ← inetAtohl netmask
  some ((subnetint, netmaskint) :: subnets.filter (·.1 ≠ subnetint))

namespace SubnetBase

def a : SubnetBase → Nat
  | one a => a
  | two a _ => a

def minB : SubnetBase → Nat
  | one _ => 1
  | two _ b => b

def maxB : SubnetBase → Nat
  | one _ => 254
  | two _ b => b + 1

end SubnetBase

/-- `for {set i $lo} {$i < $hi} {set i [expr $i + $inc]}` -/
def countUp (lo hi inc : Nat) : List Nat := List.range' lo ((hi - lo + (inc - 1)) / inc) inc

/-- The values of `j` or `k`, for the octet of the mask. -/
def octets (mask : Nat) : List Nat :=
  if mask ≠ 0 then countUp (256 - mask) 255 (256 - mask) else countUp 0 1 1

/-- The subnets that `get_subnet` looks at, in its order. -/
def candidates (base : SubnetBase) (netmaskint : Nat) : List Text :=
  (countUp base.minB base.maxB 1).flatMap fun i =>
    (octets (netmaskint >>> 8 % 256)).flatMap fun j =>
      (octets (netmaskint % 256)).map fun k => dotted base.a i j k

/-- The test of the innermost loop. -/
def okay (subnets : List (Nat × Nat)) (netmaskint : Nat) (subnet : Text) : Bool :=
  match inetAtohl subnet with
  | none => false
  | some subnetint =>
    subnets.all fun (osubnetint, onetmaskint) =>
      osubnetint ≠ subnetint ∧ ¬(subnetint &&& onetmaskint = osubnetint ∨ osubnetint &&& netmaskint = subnetint)

def getSubnet (base : SubnetBase) (subnets : List (Nat × Nat)) (netmask : Text) :
    Option (Text × List (Nat × Nat)) := do
  let netmaskint ← inetAtohl netmask
  let subnet ← (candidates base netmaskint).find? (okay subnets netmaskint)
  let subnets ← useSubnet subnets subnet netmask
  some (subnet, subnets)

/-! ## `fill_ips` -/

/-- What the first loop of `fill_ips` collects. -/
structure Scan where
  subnet : Text
  usedIps : List Text
  subnets : List (Nat × Nat)

/-- An address or alias that the user gave. -/
def note (netmask : Text) (netmaskint : Nat) (st : Scan) (ip : Text) : Option Scan := do
  let ipint ← inetAtohl ip
  let subnet := inetHltoa (ipint &&& netmaskint)
  let subnets ← useSubnet st.subnets subnet netmask
  some ⟨subnet, ip :: st.usedIps, subnets⟩

/-- "If we couldn't find a subnet we ask the Simulator for one." -/
def takeSubnet (base : SubnetBase) (netmask : Text) (scan : Scan) : Option (Text × List (Nat × Nat)) :=
  if scan.subnet = [] then getSubnet base scan.subnets netmask else some (scan.subnet, scan.subnets)

/-- The host part of all ones; `max` is the complement of the mask in 32 bits. -/
def maxHost (netmaskint : Nat) : Nat := 2 ^ 32 - 1 - netmaskint % 2 ^ 32

def getNextIp (subnetint netmaskint : Nat) (lan : LanLink Node) : Option (Text × LanLink Node) := do
  let ipCounter := (lan.ipcounters subnetint).getD 2
  let i ← (List.range' ipCounter (maxHost netmaskint - ipCounter)).find? fun i =>
    inetHltoa (subnetint ||| i) ∉ lan.usedIps
  let nextip := inetHltoa (subnetint ||| i)
  some (nextip, { lan with
    usedIps := nextip :: lan.usedIps
    ipcounters := Function.update lan.ipcounters subnetint (some (i + 1)) })

/-- The address of a port that has none. -/
def assignIp (subnetint netmaskint : Nat) (p : Port) (lan : LanLink Node) : Option (Port × LanLink Node) :=
  if p.ip = [] then do
    let (ip, lan) ← getNextIp subnetint netmaskint lan
    some ({ p with ip := ip }, lan)
  else
    some (p, lan)

/-- The aliases that were requested. -/
def assignAliases (subnetint netmaskint : Nat) : Nat → Port → LanLink Node → Option (Port × LanLink Node)
  | 0, p, lan => some (p, lan)
  | n + 1, p, lan => do
    let (ip, lan) ← getNextIp subnetint netmaskint lan
    assignAliases subnetint netmaskint n { p with ipaliases := p.ipaliases ++ [ip] } lan

/-- The body of the second loop of `fill_ips`. -/
def assignPort (subnetint netmaskint : Nat) (st : (Node × Nat → Port) × LanLink Node)
    (nodeport : Node × Nat) : Option ((Node × Nat → Port) × LanLink Node) := do
  let (p, lan) ← assignIp subnetint netmaskint (st.1 nodeport) st.2
  let (p, lan) ← assignAliases subnetint netmaskint p.wantipaliases p lan
  some (Function.update st.1 nodeport p, lan)

def fillIps (s : Simulator Node Lan) (l : Lan) : Option (Simulator Node Lan) := do
  let lan := s.lanlink l
  let netmaskint ← inetAtohl lan.netmask
  let scan ← (lan.nodelist.flatMap fun nodeport => (s.port nodeport).addresses).foldlM
    (note lan.netmask netmaskint) ⟨[], lan.usedIps, s.subnets⟩
  let (subnet, subnets) ← takeSubnet s.subnetBase lan.netmask scan
  let subnetint ← inetAtohl subnet
  let (port, lan) ← lan.nodelist.foldlM (assignPort subnetint netmaskint)
    (s.port, { lan with usedIps := scan.usedIps })
  some { s with
    subnets := subnets
    port := port
    lanlink := Function.update s.lanlink l lan
    taken := (l, subnetint) :: s.taken }

end Emulab.Ns
