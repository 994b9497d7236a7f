import Emulab.Lib.Machine
import Emulab.Ns.Ports
import Emulab.Ns.Subnets

/-! # What `Simulator run` assigns

  Addresses of different LANs differ as long as their subnets do not overlap.
  `get_subnet` can only see to that for the subnets it knows: those of the
  LANs that were visited before. Where what the user gave for another LAN is
  out of the way of each subnet that is still free, the assignment is sound.
-/

namespace Emulab.Ns

open Subnet (mask Overlap)

variable {Node Lan : Type}

/-! ## The experiment -/

namespace Simulator

def netmask (s : Simulator Node Lan) (l : Lan) : Nat := number (s.lanlink l).netmask

def addresses (s : Simulator Node Lan) (l : Lan) : List Text :=
  addressesOn s.port (s.lanlink l).nodelist

/-- Some port of the LAN lacks an address, or is to get aliases. -/
def Assigns (s : Simulator Node Lan) (l : Lan) : Prop :=
  ∃ np ∈ (s.lanlink l).nodelist, (s.port np).ip = [] ∨ 0 < (s.port np).wantipaliases

def visited (s : Simulator Node Lan) : List Lan := s.taken.map Prod.fst

end Simulator

/-- The experiment when the NS file was read. `order` has the links and LANs. -/
structure Parsed (s : Simulator Node Lan) (order : List Lan) : Prop where
  once : order.Nodup
  /-- Each link or LAN that a node is added to gets a port of its own. -/
  nodup : ∀ l ∈ order, (s.lanlink l).nodelist.Nodup
  disjoint : ∀ l ∈ order, ∀ l' ∈ order, l ≠ l' → ∀ np ∈ (s.lanlink l).nodelist, np ∉ (s.lanlink l').nodelist
  accepted : ∀ l ∈ order, ∀ np ∈ (s.lanlink l).nodelist, (s.port np).Accepted
  netmask : ∀ l ∈ order, AcceptsNetmask (s.lanlink l).netmask ∧ Contiguous (s.netmask l)
  unused : ∀ l ∈ order, (s.lanlink l).usedIps = [] ∧ (s.lanlink l).ipcounters = fun _ => none
  subnets : s.subnets = []
  taken : s.taken = []

/-- What the user gave lies, within a LAN, in one subnet, and has no address twice. -/
structure WellAddressed (s : Simulator Node Lan) (order : List Lan) : Prop where
  subnet : ∀ l ∈ order, ∀ ip ∈ s.addresses l, ∀ ip' ∈ s.addresses l,
    number ip &&& s.netmask l = number ip' &&& s.netmask l
  distinct : ((order.flatMap s.addresses).map number).Nodup

/-- What is expected of the addresses at the end, `s` being the experiment before. -/
structure Assigned (s : Simulator Node Lan) (order : List Lan) (s' : Simulator Node Lan) : Prop where
  /-- All ports have what they lacked. -/
  filled : ∀ l ∈ order, ∀ np ∈ (s.lanlink l).nodelist, Filled (s.port np) (s'.port np)
  distinct : ((order.flatMap fun l => addressesOn s'.port (s.lanlink l).nodelist).map number).Nodup
  /-- A LAN has one subnet, and what was assigned is a host of it. -/
  inSubnet : ∀ l ∈ order, ∃ n, (l, n) ∈ s'.taken ∧ (∀ ip ∈ s.addresses l, number ip &&& s.netmask l = n) ∧
    ∀ ip ∈ automaticOn s.port s'.port (s.lanlink l).nodelist,
      number ip &&& s.netmask l = n ∧ number ip &&& maxHost (s.netmask l) ≠ 0 ∧
        number ip &&& maxHost (s.netmask l) ≠ maxHost (s.netmask l)
  /-- A subnet that was chosen overlaps no other. -/
  apart : ∀ l n l' n', (l, n) ∈ s'.taken → (l', n') ∈ s'.taken → l ≠ l' → s.addresses l = [] →
    ¬Overlap n (s.netmask l) n' (s.netmask l')

/-- What `fill_ips` of `l` does not look for is not there. `s` is the experiment
    before the run, `cur` the state in which `fill_ips` is called. -/
structure Informed (s : Simulator Node Lan) (order : List Lan) (cur : Simulator Node Lan) (l : Lan) :
    Prop where
  /-- No subnet that `get_subnet` might take overlaps one that the user chose. -/
  known : s.addresses l = [] → ∀ l' ∈ order, ∀ ip ∈ s.addresses l',
    ∀ subnet ∈ candidates s.subnetBase (s.netmask l), okay cur.subnets (s.netmask l) subnet →
      ¬Overlap (number subnet) (s.netmask l) (number ip &&& s.netmask l') (s.netmask l')
  /-- The user chose the subnet for no other LAN. -/
  own : s.Assigns l → ∀ ip ∈ s.addresses l, ∀ l' ∈ order, l' ≠ l → ∀ ip' ∈ s.addresses l',
    ¬Overlap (number ip &&& s.netmask l) (s.netmask l) (number ip' &&& s.netmask l') (s.netmask l')
  canonical : s.Assigns l → ∀ ip ∈ s.addresses l, inetHltoa (number ip) = ip

/-! ## The invariant -/

/-- What `fill_ips` did to the ports of a LAN that it took subnet `n` for. -/
structure LanFilled (s : Simulator Node Lan) (port : Node × Nat → Port) (l : Lan) (n : Nat) : Prop where
  filled : ∀ np ∈ (s.lanlink l).nodelist, Filled (s.port np) (port np)
  aligned : n &&& s.netmask l = n
  user : ∀ ip ∈ s.addresses l, number ip &&& s.netmask l = n
  hosts : ∃ hosts : List Nat, hosts.Pairwise (· < ·) ∧
    (∀ i ∈ hosts, 2 ≤ i ∧ i < maxHost (s.netmask l) ∧ inetHltoa (n ||| i) ∉ s.addresses l) ∧
    automaticOn s.port port (s.lanlink l).nodelist = hosts.map fun i => inetHltoa (n ||| i)

theorem LanFilled.congr {s : Simulator Node Lan} {port port' : Node × Nat → Port} {l : Lan} {n : Nat}
    (h : LanFilled s port l n) (hsame : ∀ np ∈ (s.lanlink l).nodelist, port' np = port np) :
    LanFilled s port' l n where
  filled np hnp := hsame np hnp ▸ h.filled np hnp
  aligned := h.aligned
  user := h.user
  hosts := by
    obtain ⟨hosts, hsorted, hmem, hauto⟩ := h.hosts
    refine ⟨hosts, hsorted, hmem, ?_⟩
    rw [← hauto]
    exact List.flatMap_congr fun np hnp => congrArg (automatic (s.port np)) (hsame np hnp)

/-- Of two subnets that were taken, not both chosen by the user. -/
def Apart (s : Simulator Node Lan) (a b : Lan × Nat) : Prop :=
  s.addresses a.1 = [] ∨ s.addresses b.1 = [] → ¬Overlap a.2 (s.netmask a.1) b.2 (s.netmask b.1)

/-- What holds between two calls of `fill_ips`. -/
structure Inv (s : Simulator Node Lan) (order : List Lan) (cur : Simulator Node Lan) : Prop where
  base : cur.subnetBase = s.subnetBase
  lanlink : ∀ l ∉ cur.visited, cur.lanlink l = s.lanlink l
  port : ∀ np, (∀ l ∈ cur.visited, np ∉ (s.lanlink l).nodelist) → cur.port np = s.port np
  visited : ∀ l ∈ cur.visited, l ∈ order
  entries : ∀ e ∈ cur.subnets, Entry e
  filled : ∀ l n, (l, n) ∈ cur.taken → LanFilled s cur.port l n
  /-- What was chosen stays in the table, and is out of the way of the user. -/
  known : ∀ l n, (l, n) ∈ cur.taken → s.addresses l = [] → (n, s.netmask l) ∈ cur.subnets ∧
    ∀ l' ∈ order, ∀ ip ∈ s.addresses l', ¬Overlap n (s.netmask l) (number ip &&& s.netmask l') (s.netmask l')
  apart : cur.taken.Pairwise (Apart s)

theorem Inv.init {s : Simulator Node Lan} {order : List Lan} (h : Parsed s order) : Inv s order s where
  base := rfl
  lanlink _ _ := rfl
  port _ _ := rfl
  visited := by simp [Simulator.visited, h.taken]
  entries := by simp [h.subnets]
  filled := by simp [h.taken]
  known := by simp [h.taken]
  apart := h.taken ▸ .nil

/-! ## One LAN -/

variable [DecidableEq Node] [DecidableEq Lan]

/-- One call of `fill_ips`, for a LAN whose ports and whose own state are those of before the run. -/
theorem fillIps_spec {s cur cur' : Simulator Node Lan} {order : List Lan} {l : Lan}
    (hparsed : Parsed s order) (haddr : WellAddressed s order) (hl : l ∈ order)
    (hbase : cur.subnetBase = s.subnetBase) (hlan : cur.lanlink l = s.lanlink l)
    (hport : ∀ np ∈ (s.lanlink l).nodelist, cur.port np = s.port np) (h : fillIps cur l = some cur') :
    ∃ n, cur'.taken = (l, n) :: cur.taken ∧ cur'.subnetBase = cur.subnetBase ∧
      (∀ l', l' ≠ l → cur'.lanlink l' = cur.lanlink l') ∧
      (∀ np ∉ (s.lanlink l).nodelist, cur'.port np = cur.port np) ∧
      LanFilled s cur'.port l n ∧
      (∀ e ∈ cur'.subnets, e ∈ cur.subnets ∨ e = (n, s.netmask l)) ∧
      (∀ e ∈ cur.subnets, e ∈ cur'.subnets ∨ e.1 = n) ∧
      (s.addresses l = [] → (n, s.netmask l) ∈ cur'.subnets ∧
        ∃ subnet ∈ candidates s.subnetBase (s.netmask l), inetAtohl subnet = some n ∧
          okay cur.subnets (s.netmask l) subnet) := by
  obtain ⟨haccepts, bits, hbits, hmask⟩ := hparsed.netmask l hl
  have hm : inetAtohl (s.lanlink l).netmask = some (mask 32 bits) := hmask ▸ haccepts.1.inetAtohl_eq
  have hle : bits ≤ 16 := haccepts.bits_le hbits hmask
  have hlt : mask 32 bits < 2 ^ 32 := by
    have : 0 < 2 ^ bits := by positivity
    unfold mask
    omega
  obtain ⟨hused, hcounters⟩ := hparsed.unused l hl
  have hips : ((s.lanlink l).nodelist.flatMap fun np => (cur.port np).addresses) = s.addresses l :=
    List.flatMap_congr fun np hnp => by rw [hport np hnp]
  unfold fillIps at h
  dsimp only at h
  rw [hlan, hips, hused, hbase, hm, Option.bind_eq_bind, Option.bind_some] at h
  obtain ⟨scan, hscan, h⟩ := Option.bind_eq_some_iff.mp h
  obtain ⟨⟨subnet, subnets⟩, hsubnet, h⟩ := Option.bind_eq_some_iff.mp h
  obtain ⟨n, hn, h⟩ := Option.bind_eq_some_iff.mp h
  obtain ⟨⟨port, lan⟩, hassign, h⟩ := Option.bind_eq_some_iff.mp h
  obtain rfl := Option.some.inj h
  have hscanned := scan_spec hm hlt hscan
  -- the ports, whatever the subnet is
  obtain ⟨hosts, hout, hothers, hfilled, hauto⟩ := assignPorts_spec (hparsed.nodup l hl) hassign
  have hfilled' : ∀ np ∈ (s.lanlink l).nodelist, Filled (s.port np) (port np) :=
    fun np hnp => hport np hnp ▸ hfilled np hnp
  have hauto' : automaticOn s.port port (s.lanlink l).nodelist = hosts.map fun i => inetHltoa (n ||| i) := by
    rw [← hauto]
    exact List.flatMap_congr fun np hnp => congrArg (automatic · (port np)) (hport np hnp).symm
  have hhosts : ∀ i ∈ hosts, 2 ≤ i ∧ i < maxHost (s.netmask l) ∧ inetHltoa (n ||| i) ∉ s.addresses l := by
    intro i hi
    refine ⟨?_, hmask ▸ hout.host i hi, fun hmem => hout.unused i hi ((hscanned.used _).mpr (Or.inl hmem))⟩
    have hge := hout.ge i hi
    simpa [LanLink.counter, hcounters] using hge
  have hdone : n &&& s.netmask l = n → (∀ ip ∈ s.addresses l, number ip &&& s.netmask l = n) →
      LanFilled s port l n :=
    fun haligned huser => ⟨hfilled', haligned, huser, hosts, hout.sorted, hhosts, hauto'⟩
  unfold takeSubnet at hsubnet
  refine ⟨n, rfl, hbase.symm, fun l' hl' => Function.update_of_ne hl' _ _, hothers, ?_⟩
  rw [hmask] at hdone ⊢
  rcases hscanned.subnet with ⟨hnil, rfl⟩ | ⟨ip, hip, hchosen⟩
  · -- no address was given: the simulator chooses a subnet
    rw [if_pos rfl] at hsubnet
    obtain ⟨n', hn', haligned, hmem, hokay, rfl⟩ := getSubnet_spec hm hle hsubnet
    obtain rfl : n' = n := Option.some.inj (hn'.symm.trans hn)
    refine ⟨hdone haligned (by simp [hnil]), ?_, ?_, fun _ => ⟨List.mem_cons_self, subnet, hmem, hn, hokay⟩⟩
    · intro e he
      rcases List.mem_cons.mp he with rfl | he
      · exact Or.inr rfl
      · exact Or.inl (List.mem_filter.mp he).1
    · intro e he
      by_cases heq : e.1 = n'
      · exact Or.inr heq
      · exact Or.inl (List.mem_cons_of_mem _ (List.mem_filter.mpr ⟨he, by simpa using heq⟩))
  · -- the subnet is that of the last address
    have hand : number ip &&& mask 32 bits < 2 ^ 32 := and_mask_lt hbits _
    rw [if_neg (hchosen ▸ inetHltoa_ne_nil _)] at hsubnet
    simp only [Option.some.injEq, Prod.mk.injEq] at hsubnet
    obtain ⟨rfl, rfl⟩ := hsubnet
    obtain rfl : number ip &&& mask 32 bits = n := by
      rw [hchosen, inetAtohl_inetHltoa, Nat.mod_eq_of_lt hand] at hn
      exact Option.some.inj hn
    have hsame : ∀ ip' ∈ s.addresses l, number ip' &&& mask 32 bits = number ip &&& mask 32 bits :=
      fun ip' hip' => hmask ▸ haddr.subnet l hl ip' hip' ip hip
    refine ⟨hdone (by rw [Nat.and_assoc, Nat.and_self]) hsame, ?_, ?_, fun hnil => absurd hip (by simp [hnil])⟩
    · intro e he
      rcases hscanned.entered e he with he | ⟨ip', hip', rfl⟩
      · exact Or.inl he
      · exact Or.inr (by rw [hsame ip' hip'])
    · intro e he
      rcases hscanned.stays e he with he | ⟨ip', hip', heq⟩
      · exact Or.inl he
      · exact Or.inr (heq.trans (hsame ip' hip'))

/-! ## Runs -/

theorem Inv.fillIps {s cur cur' : Simulator Node Lan} {order : List Lan} {l : Lan}
    (hparsed : Parsed s order) (haddr : WellAddressed s order) (h : Inv s order cur) (hl : l ∈ order)
    (hnew : l ∉ cur.visited) (hok : Informed s order cur l) (hstep : fillIps cur l = some cur') :
    Inv s order cur' ∧ cur'.visited = l :: cur.visited := by
  have hport : ∀ np ∈ (s.lanlink l).nodelist, cur.port np = s.port np := by
    intro np hnp
    refine h.port np fun l' hl' => hparsed.disjoint l hl l' (h.visited l' hl') ?_ np hnp
    rintro rfl
    exact hnew hl'
  obtain ⟨n, htaken, hbase, hothers, hports, hfilled, hentered, hstays, hchosen⟩ :=
    fillIps_spec hparsed haddr hl h.base (h.lanlink l hnew) hport hstep
  have hvisited : cur'.visited = l :: cur.visited := by rw [Simulator.visited, htaken]; rfl
  obtain ⟨-, bits, hbits, hmask⟩ := hparsed.netmask l hl
  have hcontiguous : Contiguous (s.netmask l) := ⟨bits, hbits, hmask⟩
  -- a subnet that the simulator chooses now
  have hfree : s.addresses l = [] → (∀ l' ∈ order, ∀ ip ∈ s.addresses l',
        ¬Overlap n (s.netmask l) (number ip &&& s.netmask l') (s.netmask l')) ∧
      ∀ e ∈ cur.subnets, e.1 ≠ n ∧ ¬Overlap n (s.netmask l) e.1 e.2 := by
    intro hnil
    obtain ⟨-, subnet, hmem, hn, hokay⟩ := hchosen hnil
    refine ⟨fun l' hl' ip hip => ?_, fun e he => ?_⟩
    · have hno := hok.known hnil l' hl' ip hip subnet hmem hokay
      rwa [number_eq hn] at hno
    · exact not_overlap_of_okay h.entries hcontiguous hn hfilled.aligned hokay he
  have hother : ∀ l' n', (l', n') ∈ cur.taken → l' ∈ order ∧ l ≠ l' := by
    intro l' n' hmem
    have hl' : l' ∈ cur.visited := List.mem_map.mpr ⟨_, hmem, rfl⟩
    refine ⟨h.visited l' hl', ?_⟩
    rintro rfl
    exact hnew hl'
  refine ⟨⟨hbase.trans h.base, ?_, ?_, ?_, ?_, ?_, ?_, ?_⟩, hvisited⟩
  · intro l' hl'
    rw [hvisited, List.mem_cons, not_or] at hl'
    rw [hothers l' hl'.1, h.lanlink l' hl'.2]
  · intro np hnp
    rw [hvisited] at hnp
    rw [hports np (hnp l List.mem_cons_self), h.port np fun l' hl' => hnp l' (List.mem_cons_of_mem _ hl')]
  · intro l' hl'
    rw [hvisited] at hl'
    rcases List.mem_cons.mp hl' with rfl | hl'
    · exact hl
    · exact h.visited l' hl'
  · intro e he
    rcases hentered e he with he | rfl
    · exact h.entries e he
    · exact ⟨hcontiguous, hfilled.aligned⟩
  · intro l' n' hmem
    rw [htaken] at hmem
    rcases List.mem_cons.mp hmem with heq | hmem
    · obtain ⟨rfl, rfl⟩ := Prod.mk.inj heq
      exact hfilled
    · obtain ⟨hl', hne⟩ := hother l' n' hmem
      exact (h.filled l' n' hmem).congr fun np hnp =>
        hports np fun hin => hparsed.disjoint l hl l' hl' hne np hin hnp
  · intro l' n' hmem hnil
    rw [htaken] at hmem
    rcases List.mem_cons.mp hmem with heq | hmem
    · obtain ⟨rfl, rfl⟩ := Prod.mk.inj heq
      exact ⟨(hchosen hnil).1, (hfree hnil).1⟩
    · obtain ⟨hin, hno⟩ := h.known l' n' hmem hnil
      refine ⟨?_, hno⟩
      rcases hstays _ hin with hin | heq
      · exact hin
      · -- an entry is only replaced by a subnet that it overlaps
        exfalso
        rw [show n' = n from heq] at hin hno
        by_cases hl0 : s.addresses l = []
        · exact ((hfree hl0).2 _ hin).1 rfl
        · obtain ⟨ip, hip⟩ := List.exists_mem_of_ne_nil _ hl0
          refine hno l hl ip hip ⟨n, (h.entries _ hin).aligned, ?_⟩
          rw [hfilled.user ip hip, hfilled.aligned]
  · rw [htaken]
    refine List.pairwise_cons.mpr ⟨?_, h.apart⟩
    rintro ⟨l', n'⟩ hmem hnil
    obtain ⟨hl', -⟩ := hother l' n' hmem
    dsimp only at hnil ⊢
    by_cases hl0 : s.addresses l = []
    · by_cases hl0' : s.addresses l' = []
      · exact ((hfree hl0).2 _ (h.known l' n' hmem hl0').1).2
      · obtain ⟨ip, hip⟩ := List.exists_mem_of_ne_nil _ hl0'
        have hno := (hfree hl0).1 l' hl' ip hip
        rwa [(h.filled l' n' hmem).user ip hip] at hno
    · obtain ⟨ip, hip⟩ := List.exists_mem_of_ne_nil _ hl0
      have hno := (h.known l' n' hmem (hnil.resolve_left hl0)).2 l hl ip hip
      rw [hfilled.user ip hip] at hno
      exact fun hover => hno hover.symm

theorem Inv.run {s : Simulator Node Lan} {order : List Lan} (hparsed : Parsed s order)
    (haddr : WellAddressed s order) {rest : List Lan} {cur cur' : Simulator Node Lan}
    (h : Inv s order cur) (hnodup : rest.Nodup) (hrest : ∀ l ∈ rest, l ∈ order ∧ l ∉ cur.visited)
    (hok : Machine.Meets Emulab.Ns.fillIps (Informed s order) cur rest)
    (hrun : Machine.run Emulab.Ns.fillIps cur rest = some cur') :
    Inv s order cur' ∧ ∀ l, l ∈ rest ∨ l ∈ cur.visited → l ∈ cur'.visited := by
  induction rest generalizing cur with
  | nil =>
    obtain rfl : cur = cur' := Option.some.inj hrun
    exact ⟨h, by simp⟩
  | cons l rest ih =>
    rw [Machine.run_cons, Option.bind_eq_some_iff] at hrun
    obtain ⟨cur₁, hstep, hrun⟩ := hrun
    obtain ⟨hl, hnodup⟩ := List.nodup_cons.mp hnodup
    obtain ⟨horder, hnew⟩ := hrest l List.mem_cons_self
    obtain ⟨h₁, hvisited⟩ := h.fillIps hparsed haddr horder hnew hok.1 hstep
    have hrest₁ : ∀ l' ∈ rest, l' ∈ order ∧ l' ∉ cur₁.visited := by
      intro l' hl'
      obtain ⟨horder', hnew'⟩ := hrest l' (List.mem_cons_of_mem _ hl')
      refine ⟨horder', ?_⟩
      rw [hvisited, List.mem_cons, not_or]
      exact ⟨fun heq => hl (heq ▸ hl'), hnew'⟩
    obtain ⟨h', hall⟩ := ih h₁ hnodup hrest₁ (hok.2 cur₁ hstep) hrun
    refine ⟨h', fun l' hl' => hall l' ?_⟩
    rw [hvisited]
    rcases hl' with hl' | hl'
    · rcases List.mem_cons.mp hl' with rfl | hl'
      · exact Or.inr List.mem_cons_self
      · exact Or.inl hl'
    · exact Or.inr (List.mem_cons_of_mem _ hl')

end Emulab.Ns
