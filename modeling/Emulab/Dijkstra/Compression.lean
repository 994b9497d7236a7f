import Emulab.Dijkstra.Tables

/-! # Compressed tables

  A tree compressor is given addresses one after the other, each with the host that it
  belongs to. Whatever it is given, the table that it prints sends all of these addresses
  where routes to the single addresses send them, and a route to a subnet stays within the
  private network of its tree.
-/

namespace Emulab

open Option

namespace Dijkstra

/-- The private networks 10.0.0.0/8, 172.16.0.0/12 and 192.168.0.0/16. -/
def PrivateSubnet.Contains : PrivateSubnet → IPAddress → Prop
  | SUB_10, a => a &&& 0xFF000000 = 0x0A000000
  | SUB_172_16, a => a &&& 0xFFF00000 = 0xAC100000
  | SUB_192_168, a => a &&& 0xFFFF0000 = 0xC0A80000

/-- What begins with the number of a network is in it. The number of 172.16.0.0/12 has 16 bits
    where it is compared with 12, so that no address begins with it. -/
theorem PrivateSubnet.contains_of_number {sub : PrivateSubnet} {a : IPAddress}
    (h : a >>> sub.shift = sub.number) : sub.Contains a := by
  have hand : ∀ k, k ≤ 32 → sub.number.toNat < 2 ^ (32 - k) → a >>> k = sub.number →
      a &&& maskOf k = (sub.number <<< k) &&& maskOf k :=
    fun k hk hlt heq => ((and_maskOf_eq_iff hk hlt).mpr heq).symm
  cases sub with
  | SUB_10 => exact hand 24 (by decide) (by decide) h
  | SUB_172_16 =>
    -- what is compared has 12 bits, and the number does not fit into them
    have hlt : (a >>> 20).toNat < 2 ^ 12 := by
      rw [BitVec.toNat_ushiftRight, Nat.shiftRight_eq_div_pow]
      have := a.isLt
      omega
    have heq : (a >>> 20).toNat = (PrivateSubnet.SUB_172_16).number.toNat := congrArg BitVec.toNat h
    have h172 : (PrivateSubnet.SUB_172_16).number.toNat = 44048 := by decide
    omega
  | SUB_192_168 => exact hand 16 (by decide) (by decide) h

namespace TreeCompressor

/-- Addresses that are added: no address twice, none that the source reaches without a route,
    and each with a neighbour of the source for its first hop. Hosts are numbered by an `int`. -/
structure Added (routed : SingleSource) (ipMap : HostHostToIpMap) (es : List (Host × IPAddress)) :
    Prop where
  distinct : (es.map Prod.snd).Nodup
  explicit : ∀ e ∈ es, e.2 ∉ implicitIp routed ipMap
  hop : ∀ e ∈ es, ((ipMap.entry routed.source).find (routed.getFirstHop e.1)).isSome
  number : ∀ pos ∈ ipMap.entry routed.source, pos.1 < INT_MAX

/-- A route to each of the addresses. -/
def uncompressed (routed : SingleSource) (ipMap : HostHostToIpMap) (es : List (Host × IPAddress)) : List Route :=
  es.flatMap fun e =>
    match (ipMap.entry routed.source).find (routed.getFirstHop e.1) with
    | some pos => printRouteToIp pos.1 pos.2 e.2 (routed.getDistance e.1)
    | none => []

/-- The table of a compressor is as good as that without compression. -/
def Equivalent {T : Type} (tree : IpTree T) (routed : SingleSource) (ipMap : HostHostToIpMap)
    (es : List (Host × IPAddress)) : Prop :=
  ∃ printed nets, printAdded tree routed ipMap es = .ok (printed ++ (PrivateSubnet.all.map nets).flatten) ∧
    (∀ sub, tree.printRoutes ipMap routed.source sub.number
      ((es.foldl (fun st e => add tree routed ipMap e.1 e.2 st) ⟨[], fun _ => tree.reset⟩).root sub) =
        .ok (nets sub)) ∧
    (∀ e ∈ es, Guides (ipMap.entry routed.source) (printed ++ (PrivateSubnet.all.map nets).flatten)
        e.2 (routed.getFirstHop e.1) ∧
      routeTo (printed ++ (PrivateSubnet.all.map nets).flatten) e.2 = routeTo (uncompressed routed ipMap es) e.2) ∧
    (∀ r ∈ printed, r.destMask = BitVec.allOnes 32) ∧
    ∀ sub, ∀ r ∈ nets sub, ∀ a, r.Matches a → sub.Contains a

section

variable {routed : SingleSource} {ipMap : HostHostToIpMap} {es : List (Host × IPAddress)}

theorem Added.neighbour (h : Added routed ipMap es) (hop : Host)
    (hsome : ((ipMap.entry routed.source).find hop).isSome) : hop < INT_MAX := by
  obtain ⟨ips, hfind⟩ := isSome_iff_exists.mp hsome
  exact h.number _ (HostEntry.mem_of_find hfind)

theorem Added.unique (h : Added routed ipMap es) {e e' : Host × IPAddress} (he : e ∈ es)
    (he' : e' ∈ es) (heq : e'.2 = e.2) : e' = e :=
  List.inj_on_of_nodup_map h.distinct he' he heq

theorem Added.notNeighbour (h : Added routed ipMap es) {e : Host × IPAddress} (he : e ∈ es) :
    ∀ pos ∈ ipMap.entry routed.source, pos.2.2 ≠ e.2 := by
  intro pos hpos heq
  exact h.explicit e he (List.mem_map.mpr ⟨pos, hpos, heq⟩)

theorem Added.guides_uncompressed (h : Added routed ipMap es) {e : Host × IPAddress} (he : e ∈ es) :
    Guides (ipMap.entry routed.source) (uncompressed routed ipMap es) e.2 (routed.getFirstHop e.1) := by
  obtain ⟨ips, hfind⟩ := isSome_iff_exists.mp (h.hop e he)
  constructor
  · -- its own route is printed, as the address is not that of the first hop
    obtain ⟨r, hr⟩ := @exists_printRouteToIp ips.1 _ _ (routed.getDistance e.1)
      (h.notNeighbour he _ (HostEntry.mem_of_find hfind)).symm
    obtain ⟨hdest, hmask, -⟩ := mem_printRouteToIp hr
    refine ⟨r, List.mem_flatMap.mpr ⟨e, he, ?_⟩, (matches_host_iff hmask).mpr hdest⟩
    simpa only [hfind] using hr
  · -- every route to it is its own, as no address is added twice
    intro r hr hmatch _
    obtain ⟨e', he', hr⟩ := List.mem_flatMap.mp hr
    cases hfind' : (ipMap.entry routed.source).find (routed.getFirstHop e'.1) with
    | none => simp [hfind'] at hr
    | some ips' =>
      simp only [hfind'] at hr
      obtain ⟨hdest, hmask, hhop, -⟩ := mem_printRouteToIp hr
      obtain rfl := h.unique he he' (hdest.symm.trans ((matches_host_iff hmask).mp hmatch))
      exact ⟨ips', hfind', hhop⟩

theorem routeTo_of_guides {entry : HostEntry} {rs : List Route} {a : IPAddress} {hop : Host}
    (h : Guides entry rs a hop) : routeTo rs a = (entry.find hop).map Prod.snd := by
  obtain ⟨r, hr, hmatch, hlongest, hroute⟩ := routeTo_spec h.matched
  obtain ⟨ips, hfind, hhop⟩ := h.longest r hr hmatch hlongest
  rw [hroute, hhop, hfind]
  rfl

theorem Added.equivalent {T : Type} {tree : IpTree T} (h : Added routed ipMap es)
    (hgood : tree.Good) : Equivalent tree routed ipMap es := by
  obtain ⟨printed, nets, hprint, hparts⟩ := printAdded_parts hgood es h.neighbour
  have hguides : ∀ e ∈ es, Guides (ipMap.entry routed.source)
      (printed ++ (PrivateSubnet.all.map nets).flatten) e.2 (routed.getFirstHop e.1) := by
    intro e he
    obtain ⟨ips, hfind⟩ := isSome_iff_exists.mp (h.hop e he)
    exact hparts.guides he hfind (fun e' he' heq => by rw [h.unique he he' heq]) (h.notNeighbour he)
  refine ⟨printed, nets, hprint, ?_, ?_, ?_, ?_⟩
  · intro sub
    rw [(foldl_add routed ipMap es _ rfl).1 sub]
    exact hparts.net sub
  · intro e he
    refine ⟨hguides e he, ?_⟩
    rw [routeTo_of_guides (hguides e he), routeTo_of_guides (h.guides_uncompressed he)]
  · intro r hr
    obtain ⟨e, -, ips, -, -, hr⟩ := (hparts.mem_printed r).mp hr
    rw [(mem_printRouteToIp hr).2.1, allOnes_eq_maskOf]
  · intro sub r hr a hmatch
    exact PrivateSubnet.contains_of_number ((hparts.serves sub).within r hr a hmatch)

/-- Both kinds of trees compress to a table that is as good as that without compression. -/
theorem compressed_equivalent (h : Added routed ipMap es) :
    Equivalent VoteIpTree routed ipMap es ∧ Equivalent OptimalIpTree routed ipMap es :=
  ⟨h.equivalent VoteIpTree.good, h.equivalent OptimalIpTree.good⟩

end

/-- The hosts 2 and 3 are reached by host 1, with one address in a private network and one
    that is in none. -/
theorem compressed_equivalent_two : Equivalent VoteIpTree ⟨4, 0, fun _ => 1, [0, 1, 1, 1]⟩
        [[(1, 0x0A000001, 0x0A000002)], [], [], []] [(2, 0x0A000102), (3, 0x01020304)] ∧
      Equivalent OptimalIpTree ⟨4, 0, fun _ => 1, [0, 1, 1, 1]⟩
        [[(1, 0x0A000001, 0x0A000002)], [], [], []] [(2, 0x0A000102), (3, 0x01020304)] :=
  compressed_equivalent ⟨by decide, by decide, by decide, by decide⟩

end TreeCompressor

end Dijkstra

end Emulab
