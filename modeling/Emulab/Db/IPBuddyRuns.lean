import Emulab.Db.IPBuddyTree

/-! # Runs of the IP buddy allocator

  After any sequence of calls the allocated ranges are aligned blocks of the
  base range that do not overlap, and the tree has exactly these ranges. A
  request fails only if there is no free block of its size.
-/

namespace Emulab.Db

open Blocks Machine
open List hiding Disjoint

/-! ## Section 1: Ranges and ways -/

def Range.addresses (r : Range) : Set Nat := addressesFrom (value r.addr) r.plen

/-- A range begins at a multiple of its size. -/
def Range.Aligned (r : Range) : Prop := 2 ^ (32 - r.plen) ∣ value r.addr

/-- There is an aligned block in the base range that overlaps with no range. -/
def HasFree {IP : Type} (N : NetIP IP) (base : IP) (allocated : List Range) (plen : Nat) : Prop :=
  ∃ start, 2 ^ (32 - plen) ∣ start ∧ addressesFrom start plen ⊆ N.addresses base ∧
    ∀ r ∈ allocated, Disjoint (addressesFrom start plen) r.addresses

theorem addressesFrom_eq_block (l : List Bool) :
    addressesFrom (value (l ++ List.replicate (32 - l.length) false)) l.length = block 32 l :=
  (block_eq 32 l).symm

section
variable {IP : Type} {N : NetIP IP} (hN : N.Lawful) (base : IP)

/-- The bits that all addresses of a range have in common. -/
def NetIP.bits (N : NetIP IP) (a : IP) : List Bool := (N.binip a).take (N.prefixlen a)

/-- The range that a way in the tree leads to. -/
def wayRange (N : NetIP IP) (base : IP) (way : List Bool) : Range :=
  rangeOf (N.bits base) (32 - N.prefixlen base) (N.prefixlen base) way

include hN

theorem length_bits (a : IP) : (N.bits a).length = N.prefixlen a := by
  rw [NetIP.bits, length_take, hN.length_binip, Nat.min_eq_left (hN.prefixlen_le a)]

theorem binip_eq (a : IP) : N.binip a = N.bits a ++ List.replicate (32 - (N.bits a).length) false := by
  rw [length_bits hN, ← hN.drop_binip, NetIP.bits, take_append_drop]

theorem addresses_eq (a : IP) : N.addresses a = block 32 (N.bits a) := by
  rw [NetIP.addresses, binip_eq hN, ← addressesFrom_eq_block, length_bits hN]

variable (way : List Bool)

theorem wayRange_addr : (wayRange N base way).addr =
    (N.bits base ++ way) ++ List.replicate (32 - (N.bits base ++ way).length) false := by
  rw [wayRange, rangeOf, length_append, length_bits hN, Nat.sub_sub]

theorem wayRange_plen : (wayRange N base way).plen = (N.bits base ++ way).length := by
  rw [wayRange, rangeOf, length_append, length_bits hN, Nat.add_comm]

theorem wayRange_addresses : (wayRange N base way).addresses = block 32 (N.bits base ++ way) := by
  rw [Range.addresses, wayRange_addr hN, wayRange_plen hN, addressesFrom_eq_block]

theorem wayRange_aligned : (wayRange N base way).Aligned := by
  rw [Range.Aligned, wayRange_addr hN, wayRange_plen hN, value_append, value_replicate_false,
    length_replicate, Nat.add_zero]
  exact Nat.dvd_mul_left _ _

variable {base way} (hway : N.prefixlen base + way.length ≤ 32)

include hway

theorem wayRange_subset : (wayRange N base way).addresses ⊆ N.addresses base := by
  rw [wayRange_addresses hN, addresses_eq hN]
  apply block_subset
  · rw [length_append, length_bits hN]
    exact hway
  · exact prefix_append _ _

theorem disjoint_wayRange_iff {way' : List Bool} (hway' : N.prefixlen base + way'.length ≤ 32) :
    Disjoint (wayRange N base way).addresses (wayRange N base way').addresses ↔
      ¬Overlap way way' := by
  have hlen := length_bits hN base
  rw [wayRange_addresses hN, wayRange_addresses hN, disjoint_block_iff, Overlap, not_or,
    prefix_append_right_inj, prefix_append_right_inj]
  · rw [length_append, hlen]
    exact hway
  · rw [length_append, hlen]
    exact hway'

end

theorem exists_way {IP : Type} {N : NetIP IP} (hN : N.Lawful) {base inobj : IP}
    (h : N.overlapsBInA base inobj = true) :
    ∃ k, 1 ≤ k ∧ N.prefixlen inobj = N.prefixlen base + k ∧ N.prefixlen inobj ≤ 32 ∧
      (⟨N.binip inobj, N.prefixlen inobj⟩ : Range) =
        wayRange N base (((N.binip inobj).drop (N.prefixlen base)).take k) := by
  have hle := hN.prefixlen_le inobj
  have hleb := hN.prefixlen_le base
  have hlen := length_bits hN base
  have hlen' := length_bits hN inobj
  have hss := (hN.overlapsBInA_iff base inobj).mp h
  rw [addresses_eq hN, addresses_eq hN] at hss
  have hpre : N.bits base <+: N.bits inobj := (block_subset_iff (by omega) (by omega)).mp hss.subset
  have hlt : N.prefixlen base < N.prefixlen inobj := by
    rcases Nat.lt_or_ge (N.prefixlen base) (N.prefixlen inobj) with hlt | hge
    · exact hlt
    · have heq : N.bits base = N.bits inobj := hpre.eq_of_length_le (by omega)
      rw [heq] at hss
      exact absurd hss (ssubset_irrefl _)
  obtain ⟨k, hk⟩ : ∃ k, N.prefixlen inobj = N.prefixlen base + k := ⟨_, (Nat.add_sub_of_le hlt.le).symm⟩
  -- the bits of the range are those of the base and those of the way
  have hbits : N.bits base ++ ((N.binip inobj).drop (N.prefixlen base)).take k =
      N.bits inobj := by
    have htake : N.bits base = (N.binip inobj).take (N.prefixlen base) := by
      calc N.bits base = (N.bits inobj).take (N.prefixlen base) := by
            rw [← hlen]
            exact prefix_iff_eq_take.mp hpre
        _ = (N.binip inobj).take (N.prefixlen base) := by
            rw [NetIP.bits, take_take, Nat.min_eq_left hlt.le]
    rw [htake, NetIP.bits, hk, take_add]
  refine ⟨k, by omega, hk, hle, ?_⟩
  have haddr := wayRange_addr hN base (((N.binip inobj).drop (N.prefixlen base)).take k)
  have hplen := wayRange_plen hN base (((N.binip inobj).drop (N.prefixlen base)).take k)
  rw [hbits] at haddr hplen
  rw [← binip_eq hN] at haddr
  rw [hlen'] at hplen
  cases hr : wayRange N base (((N.binip inobj).drop (N.prefixlen base)).take k) with
  | mk addr plen =>
    rw [hr] at haddr hplen
    rw [← haddr, ← hplen]

theorem request_range {IP : Type} {N : NetIP IP} (hN : N.Lawful) (base : IP) {way : List Bool}
    {plen : Nat} (hplen : plen = N.prefixlen base + way.length) (hle : plen ≤ 32) :
    (⟨N.binip (N.binadd (N.ofBin (List.replicate (N.prefixlen base) false ++ way ++
      List.replicate ((N.binip base).length - plen) false)) base), plen⟩ : Range) = wayRange N base way := by
  have hlen := length_bits hN base
  have hbits : N.binip (N.ofBin (List.replicate (N.prefixlen base) false ++ way ++
      List.replicate ((N.binip base).length - plen) false)) =
      List.replicate (N.prefixlen base) false ++ way ++ List.replicate (32 - plen) false := by
    rw [hN.length_binip]
    apply hN.binip_ofBin
    simp only [length_append, length_replicate]
    omega
  have haddr := wayRange_addr hN base way
  have hwlen := wayRange_plen hN base way
  rw [length_append, hlen, ← hplen] at haddr hwlen
  have hsum : value (N.binip base) +
      value (List.replicate (N.prefixlen base) false ++ way ++ List.replicate (32 - plen) false) =
      value (N.bits base ++ way ++ List.replicate (32 - plen) false) := by
    have hhost : 32 - N.prefixlen base = way.length + (32 - plen) := by omega
    rw [binip_eq hN base, hlen, hhost]
    simp only [value_append, value_replicate_false, length_replicate, pow_add]
    ring
  have htotal : (N.bits base ++ way ++ List.replicate (32 - plen) false).length = 32 := by
    simp only [length_append, length_replicate, hlen]
    omega
  have hadd : N.binip (N.binadd (N.ofBin (List.replicate (N.prefixlen base) false ++ way ++
      List.replicate ((N.binip base).length - plen) false)) base) = (wayRange N base way).addr := by
    rw [haddr]
    apply value_inj
    · rw [hN.length_binip, htotal]
    · have hlt := value_lt (N.bits base ++ way ++ List.replicate (32 - plen) false)
      rw [htotal] at hlt
      rw [hN.value_binadd _ _ (by rw [hbits]; omega), hbits, Nat.add_comm, hsum]
  rw [hadd]
  cases hr : wayRange N base way with
  | mk addr len =>
    rw [hr] at hwlen
    rw [← hwlen]

theorem hasFree_iff {IP : Type} {N : NetIP IP} (hN : N.Lawful) (base : IP)
    {ways : List (List Bool)} {allocated : List Range} (hways : ∀ q ∈ ways, N.prefixlen base + q.length ≤ 32)
    (halloc : allocated.Perm (ways.map (wayRange N base))) {plen k : Nat}
    (hplen : plen = N.prefixlen base + k) (hle : plen ≤ 32) :
    HasFree N base allocated plen ↔
      ∃ p : List Bool, p.length = k ∧ ¬∃ q ∈ ways, Overlap p q := by
  have hlen := length_bits hN base
  have hdisjoint : ∀ p : List Bool, p.length = k →
      ((∀ r ∈ allocated, Disjoint (wayRange N base p).addresses r.addresses) ↔
        ¬∃ q ∈ ways, Overlap p q) := by
    intro p hp
    constructor
    · rintro h ⟨q, hq, hover⟩
      have hmem : wayRange N base q ∈ allocated := halloc.mem_iff.mpr (mem_map_of_mem hq)
      exact (disjoint_wayRange_iff hN (by omega) (hways q hq)).mp (h _ hmem) hover
    · intro h r hr
      obtain ⟨q, hq, rfl⟩ := mem_map.mp (halloc.mem_iff.mp hr)
      rw [disjoint_wayRange_iff hN (by omega) (hways q hq)]
      exact fun hover => h ⟨q, hq, hover⟩
  constructor
  · intro h
    obtain ⟨start, ⟨n, rfl⟩, hsub, hfree⟩ := h
    -- the block is that of a bit string, which begins with the bits of the base
    have hmem : 2 ^ (32 - plen) * n ∈ addressesFrom (2 ^ (32 - plen) * n) plen :=
      ⟨le_rfl, Nat.lt_add_of_pos_right (Nat.two_pow_pos _)⟩
    have hbound : 2 ^ (32 - plen) * n < 2 ^ 32 := by
      have hbase := hsub hmem
      rw [addresses_eq hN, mem_block_iff] at hbase
      have hv := value_lt (N.bits base)
      have hpow : 2 ^ (N.bits base).length * 2 ^ (32 - (N.bits base).length) = 2 ^ 32 := by
        rw [← pow_add]
        congr 1
        have := hN.prefixlen_le base
        omega
      have hmul : (value (N.bits base) + 1) * 2 ^ (32 - (N.bits base).length) ≤
          2 ^ (N.bits base).length * 2 ^ (32 - (N.bits base).length) :=
        Nat.mul_le_mul_right _ hv
      rw [hpow, Nat.add_mul, Nat.one_mul] at hmul
      omega
    have hn : n < 2 ^ plen := by
      have hpow : 2 ^ (32 - plen) * 2 ^ plen = 2 ^ 32 := by
        rw [← pow_add]
        congr 1
        omega
      rw [← hpow] at hbound
      exact Nat.lt_of_mul_lt_mul_left hbound
    obtain ⟨l, hl, hval⟩ := exists_value plen n hn
    have hblock : addressesFrom (2 ^ (32 - plen) * n) plen = block 32 l := by
      rw [← addressesFrom_eq_block, value_append, value_replicate_false, length_replicate, hl,
        hval, Nat.mul_comm]
      rfl
    rw [hblock, addresses_eq hN] at hsub
    obtain ⟨p, rfl⟩ := (block_subset_iff (by have := hN.prefixlen_le base; omega) (by omega)).mp hsub
    rw [length_append, hlen] at hl
    refine ⟨p, by omega, (hdisjoint p (by omega)).mp fun r hr => ?_⟩
    rw [wayRange_addresses hN, ← hblock]
    exact hfree r hr
  · intro h
    obtain ⟨p, hp, hfree⟩ := h
    have hstart : addressesFrom (value (wayRange N base p).addr) plen =
        (wayRange N base p).addresses := by
      rw [Range.addresses, wayRange_plen hN, length_append, hlen, hp, hplen]
    refine ⟨value (wayRange N base p).addr, ?_, ?_, ?_⟩
    · have halign := wayRange_aligned hN base p
      rw [Range.Aligned, wayRange_plen hN, length_append, hlen, hp, ← hplen] at halign
      exact halign
    · rw [hstart]
      exact wayRange_subset hN (by omega)
    · rw [hstart]
      exact (hdisjoint p hp).mpr hfree

/-! ## Section 2: The invariant -/

theorem pairwise_ways (s : Shape) : s.ways.Pairwise fun p q => ¬Overlap p q := by
  induction s with
  | none => exact List.Pairwise.nil
  | term => exact pairwise_singleton _ _
  | inner f ih =>
    rw [Shape.ways, pairwise_append, pairwise_map, pairwise_map]
    simp only [overlap_cons]
    refine ⟨ih false, ih true, fun p hp q hq => ?_⟩
    obtain ⟨p, -, rfl⟩ := mem_map.mp hp
    obtain ⟨q, -, rfl⟩ := mem_map.mp hq
    exact not_overlap_of_ne (by decide) p q

section
variable {T IP : Type} {B : TreeBinary T} {N : NetIP IP} {base : IP}

/-- The terminal nodes of the tree are the allocated ranges. -/
def BuddyInv (B : TreeBinary T) (N : NetIP IP) (base : IP) (s : Buddy T) : Prop :=
  ∃ f, Children B s.root f ∧ (B.getNodeValue s.root).term = false ∧
    (∀ q ∈ (Shape.inner f).ways, N.prefixlen base + q.length ≤ 32) ∧
    s.allocated.Perm ((Shape.inner f).ways.map (wayRange N base))

theorem BuddyInv.add {s : Buddy T} {f : Bool → Shape} {p : List Bool} {root' : T}
    (hterm : (B.getNodeValue s.root).term = false)
    (hways : ∀ q ∈ (Shape.inner f).ways, N.prefixlen base + q.length ≤ 32)
    (halloc : s.allocated.Perm ((Shape.inner f).ways.map (wayRange N base)))
    (hadds : Adds B s.root f p root') (hp : N.prefixlen base + p.length ≤ 32) :
    BuddyInv B N base { root := root', allocated := wayRange N base p :: s.allocated } := by
  obtain ⟨f', hf', hperm⟩ := hadds.children
  refine ⟨f', hf', ?_, ?_, ?_⟩
  · rw [hadds.nodeValue]
    exact hterm
  · intro q hq
    rcases mem_cons.mp (hperm.mem_iff.mp hq) with rfl | hq
    · exact hp
    · exact hways q hq
  · exact (halloc.cons _).trans (hperm.map (wayRange N base)).symm

theorem buddyInv_init (hB : B.Lawful) : BuddyInv B N base (buddyInit B) := by
  refine ⟨fun _ => .none, children_new hB _, ?_, by simp [ways_fresh], List.Perm.refl _⟩
  show (B.getNodeValue (B.new .star)).term = false
  rw [hB.getNodeValue_new]
  rfl

theorem embedAddressRange_spec (hB : B.Lawful) (hN : N.Lawful) {s : Buddy T}
    (h : BuddyInv B N base s) {addr : String} {inobj : IP} (hnew : N.new addr = some inobj)
    (hin : N.overlapsBInA base inobj = true) :
    ((∃ r ∈ s.allocated, ¬Disjoint (N.addresses inobj) r.addresses) ∧
        embedAddressRange B N base s.root addr =
          (some "found conflicting node while embedding!", s.root)) ∨
      (∀ r ∈ s.allocated, Disjoint (N.addresses inobj) r.addresses) ∧
        ∃ root', embedAddressRange B N base s.root addr = (none, root') ∧
          BuddyInv B N base { root := root'
                              allocated := ⟨N.binip inobj, N.prefixlen inobj⟩ :: s.allocated } := by
  obtain ⟨f, hf, hterm, hways, halloc⟩ := h
  obtain ⟨k, hk, hplen, hle, hrange⟩ := exists_way hN hin
  have hlen : k ≤ ((N.binip inobj).drop (N.prefixlen base)).length := by
    rw [length_drop, hN.length_binip]
    omega
  have hway : N.prefixlen base + (((N.binip inobj).drop (N.prefixlen base)).take k).length ≤
      32 := by
    rw [length_take]
    omega
  have haddr : N.addresses inobj =
      (wayRange N base (((N.binip inobj).drop (N.prefixlen base)).take k)).addresses := by
    rw [← hrange]
    rfl
  have hres : embedAddressRange B N base s.root addr = embedBits B (N.prefixlen inobj)
      ((N.binip inobj).drop (N.prefixlen base)) (N.prefixlen base) s.root := by
    unfold embedAddressRange
    rw [hnew]
    exact if_pos hin
  rw [hres, haddr]
  obtain ⟨⟨q, hq, hover⟩, hdied⟩ | ⟨hno, root', hroot', hadds⟩ :=
    embedBits_spec hB (N.prefixlen inobj) ((N.binip inobj).drop (N.prefixlen base))
      (N.prefixlen base) s.root f hf k hk hlen hplen
  · left
    refine ⟨⟨wayRange N base q, halloc.mem_iff.mpr (mem_map_of_mem hq), ?_⟩, hdied⟩
    rw [disjoint_wayRange_iff hN hway (hways q hq), not_not]
    exact hover
  · right
    constructor
    · intro r hr
      obtain ⟨q, hq, rfl⟩ := mem_map.mp (halloc.mem_iff.mp hr)
      rw [disjoint_wayRange_iff hN hway (hways q hq)]
      exact fun hover => hno ⟨q, hq, hover⟩
    · refine ⟨root', hroot', ?_⟩
      rw [hrange]
      exact BuddyInv.add hterm hways halloc hadds hway

theorem requestAddressRange_spec (hB : B.Lawful) (hN : N.Lawful) {s : Buddy T}
    (h : BuddyInv B N base s) {plen : Nat} (hlt : N.prefixlen base < plen) (hle : plen ≤ 32) :
    (¬HasFree N base s.allocated plen ∧
        requestAddressRange B N base s.root plen = (.ok none, s.root)) ∨
      HasFree N base s.allocated plen ∧
        ∃ ip root', requestAddressRange B N base s.root plen = (.ok (some ip), root') ∧
          BuddyInv B N base { root := root', allocated := ⟨N.binip ip, plen⟩ :: s.allocated } := by
  obtain ⟨f, hf, hterm, hways, halloc⟩ := h
  obtain ⟨k, hk⟩ : ∃ k, plen = N.prefixlen base + (k + 1) := ⟨plen - N.prefixlen base - 1, by omega⟩
  have habove : plen - N.prefixlen base - 1 = k := by omega
  have hsearch := findFree_spec hB k s.root f hf hterm
  rw [hasFree_iff hN base hways halloc hk hle]
  unfold requestAddressRange
  rw [if_neg (by omega)]
  simp only [habove]
  generalize hr : findFree B k s.root = r at hsearch
  cases hsearch with
  | nothing hover =>
    left
    refine ⟨?_, rfl⟩
    rintro ⟨p, hp, hfree⟩
    exact hfree (hover p hp)
  | found p root' hlen hfree hadds =>
    right
    refine ⟨⟨p, hlen, hfree⟩, _, root', rfl, ?_⟩
    obtain ⟨f', hf', hperm⟩ := hadds.children
    have hbits : addrBits B root' p = p := addrBits_eq root' f' hf' p (hperm.mem_iff.mpr mem_cons_self)
    rw [hbits, request_range hN base (by omega) hle]
    exact BuddyInv.add hterm hways halloc hadds (by omega)

/-! ## Section 3: Runs -/

structure BuddySound (B : TreeBinary T) (N : NetIP IP) (base : IP) (s : Buddy T) : Prop where
  aligned : ∀ r ∈ s.allocated, r.Aligned
  inside : ∀ r ∈ s.allocated, r.addresses ⊆ N.addresses base
  disjoint : s.allocated.Pairwise fun r r' => Disjoint r.addresses r'.addresses
  listed : (getRanges B N base s.root).Perm s.allocated

theorem BuddyInv.sound (hB : B.Lawful) (hN : N.Lawful) {s : Buddy T} (h : BuddyInv B N base s) :
    BuddySound B N base s := by
  obtain ⟨f, hf, -, hways, halloc⟩ := h
  have hmem : ∀ r ∈ s.allocated, ∃ q ∈ (Shape.inner f).ways, wayRange N base q = r := fun r hr =>
    mem_map.mp (halloc.mem_iff.mp hr)
  constructor
  · intro r hr
    obtain ⟨q, -, rfl⟩ := hmem r hr
    exact wayRange_aligned hN base q
  · intro r hr
    obtain ⟨q, hq, rfl⟩ := hmem r hr
    exact wayRange_subset hN (hways q hq)
  · rw [halloc.pairwise_iff fun hd => hd.symm, pairwise_map]
    apply (pairwise_ways (.inner f)).imp_of_mem
    intro p q hp hq hover
    exact (disjoint_wayRange_iff hN (hways p hp) (hways q hq)).mpr hover
  · refine List.Perm.trans (List.Perm.of_eq ?_) halloc.symm
    unfold getRanges
    simp only [hN.length_binip]
    rw [foldl_visitNode hB hf]
    rfl

/-- A request is for a prefix length of the address space. -/
def BuddyOp.InSpace : BuddyOp → Prop
  | .embed _ => True
  | .request plen => plen ≤ 32

theorem buddyStep_spec (hB : B.Lawful) (hN : N.Lawful) {s : Buddy T} (h : BuddyInv B N base s)
    {op : BuddyOp} (hop : op.InSpace) : ∃ s', buddyStep B N base s op = some s' ∧ BuddyInv B N base s' := by
  cases op with
  | embed addr =>
    unfold buddyStep
    cases hnew : N.new addr with
    | none =>
      simp only [embedAddressRange, hnew]
      exact ⟨_, rfl, h⟩
    | some inobj =>
      by_cases hin : N.overlapsBInA base inobj = true
      · obtain ⟨-, hres⟩ | ⟨-, root', hres, hinv⟩ := embedAddressRange_spec hB hN h hnew hin
        · simp only [hres]
          exact ⟨_, rfl, h⟩
        · simp only [hres, hnew]
          exact ⟨_, rfl, hinv⟩
      · simp only [embedAddressRange, hnew, if_neg hin]
        exact ⟨_, rfl, h⟩
  | request plen =>
    unfold buddyStep
    by_cases hle : plen ≤ N.prefixlen base
    · simp only [requestAddressRange, if_pos hle]
      exact ⟨_, rfl, h⟩
    · obtain ⟨-, hres⟩ | ⟨-, ip, root', hres, hinv⟩ :=
        requestAddressRange_spec hB hN h (by omega) hop
      · simp only [hres]
        exact ⟨_, rfl, h⟩
      · simp only [hres]
        exact ⟨_, rfl, hinv⟩

/-- After every sequence of calls the allocated ranges are aligned, disjoint
    and in the base range, and they are what is listed. A request fails exactly
    if there is no free block, and a conflicting embed changes nothing. -/
theorem buddy_sound (hB : B.Lawful) (hN : N.Lawful) (base : IP) (ops : List BuddyOp)
    (hops : ∀ op ∈ ops, op.InSpace) :
    ∃ s, run (buddyStep B N base) (buddyInit B) ops = some s ∧ BuddySound B N base s ∧
      (∀ plen, N.prefixlen base < plen → plen ≤ 32 →
        ((requestAddressRange B N base s.root plen).1 = .ok none ↔
          ¬HasFree N base s.allocated plen)) ∧
      ∀ addr inobj, N.new addr = some inobj → N.overlapsBInA base inobj = true →
        (∃ r ∈ s.allocated, ¬Disjoint (N.addresses inobj) r.addresses) →
        embedAddressRange B N base s.root addr =
          (some "found conflicting node while embedding!", s.root) := by
  obtain ⟨s, hrun, hinv⟩ := run_total (BuddyInv B N base)
    (fun s op h hop => buddyStep_spec hB hN h hop) (buddyInv_init hB) (meets_of_forall hops _)
  refine ⟨s, hrun, hinv.sound hB hN, ?_, ?_⟩
  · intro plen hlt hle
    obtain ⟨hno, hres⟩ | ⟨hyes, ip, root', hres, -⟩ :=
      requestAddressRange_spec hB hN hinv hlt hle
    · rw [hres]
      exact iff_of_true rfl hno
    · rw [hres]
      exact iff_of_false (by simp) (not_not.mpr hyes)
  · intro addr inobj hnew hin hconflict
    obtain ⟨-, hres⟩ | ⟨hdisjoint, -⟩ := embedAddressRange_spec hB hN hinv hnew hin
    · exact hres
    · obtain ⟨r, hr, hnot⟩ := hconflict
      exact absurd (hdisjoint r hr) hnot

end

inductive BinTree where
  | leaf (v : NodeValue)
  | left (v : NodeValue) (l : BinTree)
  | right (v : NodeValue) (r : BinTree)
  | both (v : NodeValue) (l r : BinTree)

namespace BinTree

def value : BinTree → NodeValue
  | leaf v | left v _ | right v _ | both v _ _ => v

def getLeft : BinTree → Option BinTree
  | leaf _ | right _ _ => none
  | left _ l | both _ l _ => some l

def getRight : BinTree → Option BinTree
  | leaf _ | left _ _ => none
  | right _ r | both _ _ r => some r

def setLeft (t l : BinTree) : BinTree :=
  match t with
  | leaf v | left v _ => left v l
  | right v r | both v _ r => both v l r

def setRight (t r : BinTree) : BinTree :=
  match t with
  | leaf v | right v _ => right v r
  | left v l | both v l _ => both v l r

/-- The subtrees in pre-order, with their depths. -/
def traverse : BinTree → List (Nat × BinTree)
  | leaf v => [(0, leaf v)]
  | left v l => (0, left v l) :: l.traverse.map fun x => (x.1 + 1, x.2)
  | right v r => (0, right v r) :: r.traverse.map fun x => (x.1 + 1, x.2)
  | both v l r => (0, both v l r) :: (l.traverse ++ r.traverse).map fun x => (x.1 + 1, x.2)

/-- Binary trees have the methods of `Tree::Binary`. -/
def methods : TreeBinary BinTree where
  new := leaf
  getNodeValue := value
  getLeft := getLeft
  getRight := getRight
  setLeft := setLeft
  setRight := setRight
  traverse := traverse

theorem methods_lawful : methods.Lawful := by
  constructor
  case traverse_eq =>
    intro t
    cases t <;> simp [methods, traverse, getLeft, getRight]
  case setLeft_getLeft =>
    intro t c h
    cases t <;> simp_all [methods, getLeft, setLeft]
  case setRight_getRight =>
    intro t c h
    cases t <;> simp_all [methods, getRight, setRight]
  all_goals intros
  all_goals first | rfl | (rename_i t c; cases t <;> rfl)

end BinTree

/-- The ranges of version 4, as the bits of their prefix. -/
abbrev IPv4 := { l : List Bool // l.length ≤ 32 }

namespace IPv4

def binip (a : IPv4) : List Bool := a.1 ++ List.replicate (32 - a.1.length) false

/-- Ranges of version 4 have the methods of `Net::IP`; of the texts only one is taken for a range. -/
def methods : NetIP IPv4 where
  new := fun addr =>
    if addr = "10.1.0.0/16" then some ⟨toBits 16 (10 * 256 + 1), by simp⟩ else none
  error := fun addr => "invalid: " ++ addr
  binip := binip
  prefixlen := fun a => a.1.length
  prefixText := fun a => toString a.1
  overlapsBInA := fun a b => a.1.length < b.1.length ∧ b.1.take a.1.length = a.1
  ofBin := fun l => ⟨l.take 32, by simp⟩
  binadd := fun a b => ⟨toBits 32 (value (binip a) + value (binip b)), by simp⟩

theorem methods_lawful : methods.Lawful := by
  have haddresses : ∀ a : IPv4, methods.addresses a = block 32 a.1 := fun a =>
    addressesFrom_eq_block a.1
  constructor
  · intro a
    have := a.2
    simp only [methods, binip, length_append, length_replicate]
    omega
  · exact fun a => a.2
  · intro a
    simp [methods, binip]
  · intro a b
    have ha := a.2
    have hb := b.2
    rw [haddresses, haddresses, ssubset_iff_subset_not_subset, block_subset_iff ha hb, block_subset_iff hb ha]
    simp only [methods, decide_eq_true_eq]
    constructor
    · intro h
      refine ⟨prefix_iff_eq_take.mpr h.2.symm, fun hba => ?_⟩
      have := hba.length_le
      omega
    · intro h
      have heq := (prefix_iff_eq_take.mp h.1).symm
      refine ⟨Nat.lt_of_not_le fun hle => h.2 ?_, heq⟩
      rw [← h.1.eq_of_length_le hle]
  · intro l hl
    simp [methods, binip, hl]
  · intro a b hlt
    simp only [methods] at hlt ⊢
    simp only [binip, length_toBits, Nat.sub_self, replicate_zero, append_nil, value_toBits]
    exact Nat.mod_eq_of_lt hlt

/-- `10.0.0.0/8`. -/
def ten : IPv4 := ⟨toBits 8 10, by simp⟩

end IPv4

/-- A range is embedded, and another one of its size requested. -/
theorem buddy_sound_ten :
    ∃ s, run (buddyStep BinTree.methods IPv4.methods IPv4.ten) (buddyInit BinTree.methods)
        [.embed "10.1.0.0/16", .request 16] = some s ∧
      BuddySound BinTree.methods IPv4.methods IPv4.ten s := by
  obtain ⟨s, hrun, hsound, -⟩ := buddy_sound BinTree.methods_lawful IPv4.methods_lawful IPv4.ten
    [.embed "10.1.0.0/16", .request 16] (by simp [BuddyOp.InSpace])
  exact ⟨s, hrun, hsound⟩

/-- The second range is the last one of the space. -/
example : (run (buddyStep BinTree.methods IPv4.methods IPv4.ten) (buddyInit BinTree.methods)
    [.embed "10.1.0.0/16", .request 16]).map (fun s => s.allocated.map fun r =>
      (value r.addr / 2 ^ 16, r.plen)) = some [(10 * 256 + 255, 16), (10 * 256 + 1, 16)] := by
  decide +kernel

end Emulab.Db
