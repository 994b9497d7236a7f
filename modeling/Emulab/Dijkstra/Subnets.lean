import Emulab.Dijkstra.FirstHops

/-! # Routes to subnets

  The path of a node in a tree is what the addresses of its subnet begin
  with. A route to the subnet matches exactly these addresses, and the longer
  the path the longer is the mask. So the longest match of a table that was
  printed from announcements is the longest announced prefix of the address.
-/

namespace Emulab

open List

namespace Dijkstra

/-! ## Masks and matches -/

/-- The mask that leaves `k` bits free. -/
abbrev maskOf (k : Nat) : IPAddress := BitVec.allOnes 32 <<< k

theorem toNat_maskOf {k : Nat} (hk : k ≤ 32) : (maskOf k).toNat = 2 ^ 32 - 2 ^ k := by
  have hall : ∀ k : Fin 33, (maskOf k.val).toNat = 2 ^ 32 - 2 ^ k.val := by decide
  exact hall ⟨k, by omega⟩

theorem allOnes_eq_maskOf : BitVec.allOnes 32 = maskOf 0 := by decide

theorem maskOf_le_iff {k k' : Nat} (hk : k ≤ 32) (hk' : k' ≤ 32) : maskOf k' ≤ maskOf k ↔ k ≤ k' := by
  rw [BitVec.le_def, toNat_maskOf hk, toNat_maskOf hk']
  have hpow : 2 ^ k ≤ 2 ^ 32 := Nat.pow_le_pow_right (by omega) hk
  have hpow' : 2 ^ k' ≤ 2 ^ 32 := Nat.pow_le_pow_right (by omega) hk'
  constructor
  · intro hle
    exact (Nat.pow_le_pow_iff_right (by omega)).mp (by omega : 2 ^ k ≤ 2 ^ k')
  · intro hle
    have : 2 ^ k ≤ 2 ^ k' := Nat.pow_le_pow_right (by omega) hle
    omega

theorem and_maskOf_eq_iff {k : Nat} {subnet a : IPAddress} (hk : k ≤ 32) (hsubnet : subnet.toNat < 2 ^ (32 - k)) :
    (subnet <<< k) &&& maskOf k = a &&& maskOf k ↔ a >>> k = subnet := by
  constructor
  · intro heq
    apply BitVec.eq_of_getLsbD_eq
    intro i hi
    have hbit := congrArg (fun x : IPAddress => x.getLsbD (k + i)) heq
    simp only [BitVec.getLsbD_and, BitVec.getLsbD_shiftLeft, BitVec.getLsbD_allOnes] at hbit
    rw [BitVec.getLsbD_ushiftRight]
    by_cases hlt : k + i < 32
    · simpa [hlt, hi] using hbit.symm
    · -- beyond the end both are zero
      rw [BitVec.getLsbD_of_ge _ _ (by omega)]
      exact (Nat.testBit_lt_two_pow (hsubnet.trans_le (Nat.pow_le_pow_right (by omega) (by omega)))).symm
  · rintro rfl
    apply BitVec.eq_of_getLsbD_eq
    intro i hi
    simp only [BitVec.getLsbD_and, BitVec.getLsbD_shiftLeft, BitVec.getLsbD_allOnes, BitVec.getLsbD_ushiftRight]
    by_cases hle : i < k
    · simp [hle]
    · simp [hle, hi, show k + (i - k) = i by omega, show i - k < 32 by omega]

theorem mem_printRouteToIp {sourceIp firstHopIp destIp : IPAddress} {cost : Nat} {r : Route}
    (h : r ∈ printRouteToIp sourceIp firstHopIp destIp cost) :
    r.dest = destIp ∧ r.destMask = maskOf 0 ∧ r.nextHop = firstHopIp ∧ destIp ≠ firstHopIp := by
  unfold printRouteToIp at h
  split_ifs at h with hne
  · rw [mem_singleton.mp h]
    exact ⟨rfl, allOnes_eq_maskOf, rfl, hne⟩
  · cases h

theorem exists_printRouteToIp {sourceIp firstHopIp destIp : IPAddress} (cost : Nat)
    (hne : destIp ≠ firstHopIp) : ∃ r, r ∈ printRouteToIp sourceIp firstHopIp destIp cost := by
  unfold printRouteToIp
  rw [if_pos hne]
  exact ⟨_, mem_singleton_self _⟩

theorem mem_printRouteToSubnet {sourceIp firstHopIp destSubnet : IPAddress} {size cost : Nat}
    {r : Route} (hsize : size ≤ 32) (h : r ∈ printRouteToSubnet sourceIp firstHopIp destSubnet size cost) :
    r.dest = destSubnet ∧ r.destMask = maskOf (32 - size) ∧ r.nextHop = firstHopIp := by
  unfold printRouteToSubnet at h
  split_ifs at h with h32 h0
  · obtain ⟨hdest, hmask, hhop, -⟩ := mem_printRouteToIp h
    exact ⟨hdest, by rw [hmask, h32], hhop⟩
  · rw [mem_singleton.mp h]
    subst h0
    exact ⟨rfl, (by decide : (0 : IPAddress) = maskOf 32), rfl⟩
  · rw [mem_singleton.mp h]
    exact ⟨rfl, rfl, rfl⟩

theorem exists_printRouteToSubnet {sourceIp firstHopIp destSubnet : IPAddress} {size : Nat}
    (cost : Nat) (hne : size = 32 → destSubnet ≠ firstHopIp) :
    ∃ r, r ∈ printRouteToSubnet sourceIp firstHopIp destSubnet size cost := by
  unfold printRouteToSubnet
  split_ifs with h32 h0
  · exact exists_printRouteToIp cost (hne h32)
  · exact ⟨_, mem_singleton_self _⟩
  · exact ⟨_, mem_singleton_self _⟩

theorem matches_host_iff {r : Route} {a : IPAddress} (hmask : r.destMask = maskOf 0) :
    r.Matches a ↔ r.dest = a := by
  rw [Route.Matches, hmask, ← allOnes_eq_maskOf, BitVec.and_allOnes, BitVec.and_allOnes]

/-! ## The path of an address -/

/-- The last bits of an address, from the highest. -/
def bits (ip : IPAddress) : Nat → List Bool
  | 0 => []
  | left + 1 => ip.getLsbD left :: bits ip left

@[simp] theorem length_bits (ip : IPAddress) (n : Nat) : (bits ip n).length = n := by
  induction n with
  | zero => rfl
  | succ n ih => simp [bits, ih]

def childSubnet (subnet : IPAddress) (bit : Bool) : IPAddress :=
  if bit then (subnet <<< 1) + 1 else subnet <<< 1

/-- The number of the subnet at the end of a path. -/
def subnetAt (subnet : IPAddress) (path : List Bool) : IPAddress := path.foldl childSubnet subnet

theorem toNat_childSubnet {subnet : IPAddress} {bit : Bool} (h : subnet.toNat < 2 ^ 31) :
    (childSubnet subnet bit).toNat = 2 * subnet.toNat + bit.toNat := by
  have hdouble : (subnet <<< 1).toNat = 2 * subnet.toNat := by
    rw [BitVec.toNat_shiftLeft, Nat.shiftLeft_eq]
    omega
  cases bit with
  | false => simpa [childSubnet] using hdouble
  | true =>
    show ((subnet <<< 1) + 1).toNat = _
    rw [BitVec.toNat_add, hdouble]
    simp
    omega

theorem ushiftRight_eq_childSubnet {n : Nat} {subnet a : IPAddress} {bit : Bool} (hn : n < 32)
    (hsubnet : subnet.toNat < 2 ^ (32 - (n + 1))) :
    a >>> n = childSubnet subnet bit ↔ a >>> (n + 1) = subnet ∧ a.getLsbD n = bit := by
  have hlt : subnet.toNat < 2 ^ 31 := hsubnet.trans_le (Nat.pow_le_pow_right (by omega) (by omega))
  rw [← BitVec.toNat_inj, ← BitVec.toNat_inj, toNat_childSubnet hlt, BitVec.toNat_ushiftRight,
    BitVec.toNat_ushiftRight, Nat.shiftRight_succ]
  have hbit : a.getLsbD n = decide (a.toNat >>> n % 2 = 1) := by
    rw [Nat.shiftRight_eq_div_pow, ← Nat.testBit_eq_decide_div_mod_eq]
    rfl
  rw [hbit]
  generalize a.toNat >>> n = x
  cases bit <;> simp <;> omega

theorem ushiftRight_eq_subnetAt {path : List Bool} {n : Nat} {subnet a : IPAddress} (hn : n ≤ 32)
    (hsubnet : subnet.toNat < 2 ^ (32 - n)) (hpath : path.length ≤ n) :
    a >>> (n - path.length) = subnetAt subnet path ↔ a >>> n = subnet ∧ path <+: bits a n := by
  induction path generalizing n subnet with
  | nil => simp [subnetAt]
  | cons bit path ih =>
    cases n with
    | zero => simp at hpath
    | succ n =>
      have hlt : subnet.toNat < 2 ^ 31 := hsubnet.trans_le (Nat.pow_le_pow_right (by omega) (by omega))
      have hchild : (childSubnet subnet bit).toNat < 2 ^ (32 - n) := by
        rw [toNat_childSubnet hlt, show 32 - n = (32 - (n + 1)) + 1 by omega, pow_succ]
        have := Bool.toNat_lt bit
        omega
      show a >>> (n + 1 - (path.length + 1)) = subnetAt (childSubnet subnet bit) path ↔ _
      rw [Nat.add_sub_add_right, ih (by omega) hchild (by simpa using hpath),
        ushiftRight_eq_childSubnet (by omega) hsubnet, bits, cons_prefix_cons]
      tauto

theorem subnetAt_lt {path : List Bool} {n : Nat} {subnet : IPAddress} (hn : n ≤ 32)
    (hsubnet : subnet.toNat < 2 ^ (32 - n)) (hpath : path.length ≤ n) :
    (subnetAt subnet path).toNat < 2 ^ (32 - (n - path.length)) := by
  induction path generalizing n subnet with
  | nil => simpa [subnetAt] using hsubnet
  | cons bit path ih =>
    cases n with
    | zero => simp at hpath
    | succ n =>
      have hlt : subnet.toNat < 2 ^ 31 := hsubnet.trans_le (Nat.pow_le_pow_right (by omega) (by omega))
      have hchild : (childSubnet subnet bit).toNat < 2 ^ (32 - n) := by
        rw [toNat_childSubnet hlt, show 32 - n = (32 - (n + 1)) + 1 by omega, pow_succ]
        have := Bool.toNat_lt bit
        omega
      show (subnetAt (childSubnet subnet bit) path).toNat < _
      have := ih (by omega) hchild (by simpa using hpath)
      simpa using this

/-! ## Tables from announcements -/

/-- The route of an announcement below a root with `n` bits left. -/
def routeAt (entry : HostEntry) (n : Nat) (number : IPAddress) (e : List Bool × Host) : List Route :=
  match entry.find e.2 with
  | some pos => printRouteToSubnet pos.1 pos.2 (subnetAt number e.1 <<< (IP_SIZE - (IP_SIZE - (n - e.1.length))))
      (IP_SIZE - (n - e.1.length)) 1
  | none => []

/-- The longest match for the address sends it to a host, by one of the links to that host. -/
structure Guides (entry : HostEntry) (rs : List Route) (a : IPAddress) (hop : Host) : Prop where
  matched : ∃ r ∈ rs, r.Matches a
  longest : ∀ r ∈ rs, r.Matches a → (∀ r' ∈ rs, r'.Matches a → r'.destMask ≤ r.destMask) →
    ∃ ips, entry.find hop = some ips ∧ r.nextHop = ips.2

/-- The routes are those within a subnet for a list of addresses, each to be sent to a
    neighbour. What they promise is about addresses that need a route. -/
structure Serves (entry : HostEntry) (n : Nat) (number : IPAddress) (l : List (IPAddress × Host))
    (rs : List Route) : Prop where
  within : ∀ r ∈ rs, ∀ a, r.Matches a → a >>> n = number
  served : ∀ a x, (a, x) ∈ l → (∀ y, (a, y) ∈ l → y = x) → (∀ pos ∈ entry, pos.2.2 ≠ a) → Guides entry rs a x

section

variable {entry : HostEntry} {n : Nat} {number : IPAddress} {e : List Bool × Host} {r : Route}

theorem mem_routeAt (hn : n ≤ 32) (hlength : e.1.length ≤ n) (h : r ∈ routeAt entry n number e) :
    ∃ ips, entry.find e.2 = some ips ∧ r.nextHop = ips.2 ∧ r.destMask = maskOf (n - e.1.length) ∧
      r.dest = subnetAt number e.1 <<< (n - e.1.length) := by
  unfold routeAt at h
  cases hfind : entry.find e.2 with
  | none => simp [hfind] at h
  | some ips =>
    simp only [hfind, IP_SIZE, show 32 - (32 - (n - e.1.length)) = n - e.1.length by omega] at h
    obtain ⟨hdest, hmask, hhop⟩ := mem_printRouteToSubnet (by omega) h
    refine ⟨ips, rfl, hhop, ?_, hdest⟩
    rw [hmask, show 32 - (32 - (n - e.1.length)) = n - e.1.length by omega]

theorem matches_routeAt (hn : n ≤ 32) (hnumber : number.toNat < 2 ^ (32 - n))
    (hlength : e.1.length ≤ n) (h : r ∈ routeAt entry n number e) {a : IPAddress} :
    r.Matches a ↔ a >>> n = number ∧ e.1 <+: bits a n := by
  obtain ⟨ips, -, -, hmask, hdest⟩ := mem_routeAt hn hlength h
  rw [Route.Matches, hmask, hdest, and_maskOf_eq_iff (by omega) (subnetAt_lt hn hnumber hlength),
    ushiftRight_eq_subnetAt hn hnumber hlength]

theorem exists_routeAt (hn : n ≤ 32) (hnumber : number.toNat < 2 ^ (32 - n))
    (hlength : e.1.length ≤ n) {ips : IPAddress × IPAddress} (hfind : entry.find e.2 = some ips)
    {a : IPAddress} (ha : a >>> n = number) (hpath : e.1 <+: bits a n)
    (hexplicit : ∀ pos ∈ entry, pos.2.2 ≠ a) : ∃ r, r ∈ routeAt entry n number e := by
  unfold routeAt
  simp only [hfind, IP_SIZE, show 32 - (32 - (n - e.1.length)) = n - e.1.length by omega]
  apply exists_printRouteToSubnet
  intro hsize heq
  -- a route to a single address is one to `a`
  have hzero : n - e.1.length = 0 := by omega
  have hsubnet := (ushiftRight_eq_subnetAt hn hnumber hlength).mpr ⟨ha, hpath⟩
  rw [hzero] at hsubnet heq
  rw [← hsubnet] at heq
  refine hexplicit _ (HostEntry.mem_of_find hfind) ?_
  simpa using heq.symm

/-- Where every announcement has a neighbour for its hop, and the choice at the end of the
    path of an address is the hop of that address, the routes serve the addresses. -/
theorem serves_of_announce {δ : Type} {pick : Host → δ → Host} {t : PrefixTree δ}
    {l : List (IPAddress × Host)} (hn : n ≤ 32) (hnumber : number.toNat < 2 ^ (32 - n))
    (hfound : ∀ e ∈ t.announce pick INT_MAX, e.1.length ≤ n ∧ ∃ ips, entry.find e.2 = some ips)
    (hroot : ∃ x, ([], x) ∈ t.announce pick INT_MAX) (hin : ∀ e ∈ l, e.1 >>> n = number)
    (hat : ∀ a x, (a, x) ∈ l → (∀ y, (a, y) ∈ l → y = x) → t.follow pick INT_MAX (bits a n) = x) :
    Serves entry n number l ((t.announce pick INT_MAX).flatMap (routeAt entry n number)) where
  within := by
    intro r hr a hmatch
    obtain ⟨e, he, hr⟩ := mem_flatMap.mp hr
    exact ((matches_routeAt hn hnumber (hfound e he).1 hr).mp hmatch).1
  served := by
    intro a x hx hunique hexplicit
    have ha := hin _ hx
    have hprinted : ∀ e ∈ t.announce pick INT_MAX, e.1 <+: bits a n →
        ∃ r ∈ routeAt entry n number e, r.Matches a := by
      intro e he hpath
      obtain ⟨hlength, ips, hfind⟩ := hfound e he
      obtain ⟨r, hr⟩ := exists_routeAt hn hnumber hlength hfind ha hpath hexplicit
      exact ⟨r, hr, (matches_routeAt hn hnumber hlength hr).mpr ⟨ha, hpath⟩⟩
    constructor
    · obtain ⟨x, hx⟩ := hroot
      obtain ⟨r, hr, hmatch⟩ := hprinted _ hx nil_prefix
      exact ⟨r, mem_flatMap.mpr ⟨_, hx, hr⟩, hmatch⟩
    · intro r hr hmatch hmax
      obtain ⟨e, he, hr⟩ := mem_flatMap.mp hr
      have hlength := (hfound e he).1
      obtain ⟨ips, hfind, hhop, hmask, -⟩ := mem_routeAt hn hlength hr
      have hpath := ((matches_routeAt hn hnumber hlength hr).mp hmatch).2
      have hlongest : ∀ e' ∈ t.announce pick INT_MAX, e'.1 <+: bits a n → e'.1.length ≤ e.1.length := by
        intro e' he' hpath'
        obtain ⟨r', hr', hmatch'⟩ := hprinted e' he' hpath'
        have hlength' := (hfound e' he').1
        obtain ⟨-, -, -, hmask', -⟩ := mem_routeAt hn hlength' hr'
        have hle := hmax r' (mem_flatMap.mpr ⟨e', he', hr'⟩) hmatch'
        rw [hmask, hmask', maskOf_le_iff (by omega) (by omega)] at hle
        omega
      have hchoice := PrefixTree.longest_follow he hpath hlongest
      rw [hat a x hx hunique] at hchoice
      exact ⟨ips, by rw [← hchoice]; exact hfind, hhop⟩

end

end Dijkstra

end Emulab
