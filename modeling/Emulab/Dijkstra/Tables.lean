import Emulab.Lib.Outcome
import Emulab.Dijkstra.IpTrees

/-! # The tables of a host

  Whichever compressor prints the table, the longest match for an address of
  another host sends it to the first hop to that host. Without compression
  there is no table when some host is not reached.
-/

namespace Emulab

open List Option

namespace Dijkstra

open ShortestPath

/-- The table sends every address that needs a route, of every host that is reached, to the
    first hop to its host. -/
def GuidesAll (input : Input) (routed : SingleSource) (rs : List Route) : Prop :=
  ∀ dest < input.graph.vertexCount, dest ≠ routed.source →
    Reaches input.graph.Joined routed.source dest → ∀ pos ∈ input.ip.entry dest,
      (∀ pos' ∈ input.ip.entry routed.source, pos'.2.2 ≠ pos.2.1) →
        Guides (input.ip.entry routed.source) rs pos.2.1 (routed.getFirstHop dest)

section

variable {numVertices : Nat} {lines : List Line} {input : Input} {s : Host} {routed : SingleSource}

theorem Routed.find_of_reaches (hrouted : Routed input.graph s routed)
    (h : Reads numVertices lines input) {dest : Host} (hdest : dest < input.graph.vertexCount)
    (hne : dest ≠ s) (hreaches : Reaches input.graph.Joined s dest) :
    ∃ ips, (input.ip.entry s).find (routed.getFirstHop dest) = some ips := by
  obtain ⟨w, c, hjoined, -⟩ := hrouted.reached dest hdest hne hreaches
  obtain ⟨ips, hmem⟩ := h.mem_entry_iff_joined.mpr ⟨w, hjoined⟩
  rw [← ne_none_iff_exists']
  intro hnone
  exact HostEntry.find_eq_none.mp hnone _ hmem rfl

theorem Routed.find_of_unreached (hrouted : Routed input.graph s routed)
    (h : Reads numVertices lines input) {dest : Host} (hdest : dest < input.graph.vertexCount)
    (hnot : ¬Reaches input.graph.Joined s dest) :
    routed.getFirstHop dest = dest ∧ (input.ip.entry s).find dest = none := by
  refine ⟨hrouted.unreached dest hdest hnot, HostEntry.find_eq_none.mpr ?_⟩
  rintro ⟨j, ips⟩ hmem rfl
  obtain ⟨w, hjoined⟩ := h.mem_entry_iff_joined.mp ⟨ips, hmem⟩
  exact hnot ⟨w, Walk.single hjoined⟩

/-! ## Without compression -/

namespace NoneCompressor

theorem mem_printDestIps {sourceIp firstHopIp : IPAddress} {cost : Nat}
    {previous : Option IPAddress} {entry : HostEntry} {r : Route}
    (h : r ∈ printDestIps sourceIp firstHopIp cost previous entry) :
    r.destMask = maskOf 0 ∧ r.nextHop = firstHopIp ∧ ∃ pos ∈ entry, r.dest = pos.2.1 := by
  induction entry generalizing previous with
  | nil => simp [printDestIps] at h
  | cons pos rest ih =>
    unfold printDestIps at h
    dsimp only at h
    split_ifs at h with hnew
    · rcases mem_append.mp h with h | h
      · obtain ⟨hdest, hmask, hhop, -⟩ := mem_printRouteToIp h
        exact ⟨hmask, hhop, pos, by simp, hdest⟩
      · obtain ⟨hmask, hhop, pos', hpos', hdest⟩ := ih h
        exact ⟨hmask, hhop, pos', by simp [hpos'], hdest⟩
    · obtain ⟨hmask, hhop, pos', hpos', hdest⟩ := ih h
      exact ⟨hmask, hhop, pos', by simp [hpos'], hdest⟩

/-- An address is printed, unless it is that of the next hop or was just printed. -/
theorem exists_printDestIps {sourceIp firstHopIp : IPAddress} (cost : Nat)
    {previous : Option IPAddress} {entry : HostEntry} {pos : Host × IPAddress × IPAddress}
    (hpos : pos ∈ entry) (hne : pos.2.1 ≠ firstHopIp) (hprevious : previous ≠ some pos.2.1) :
    ∃ r ∈ printDestIps sourceIp firstHopIp cost previous entry, r.dest = pos.2.1 := by
  induction entry generalizing previous with
  | nil => cases hpos
  | cons first rest ih =>
    unfold printDestIps
    dsimp only
    by_cases hfirst : first.2.1 = pos.2.1
    · -- the first time that it comes it is new
      rw [hfirst, if_pos hprevious.symm]
      obtain ⟨r, hr⟩ := @exists_printRouteToIp sourceIp _ _ cost hne
      exact ⟨r, mem_append_left _ hr, (mem_printRouteToIp hr).1⟩
    · have hrest : pos ∈ rest := by
        rcases mem_cons.mp hpos with rfl | hrest
        · exact absurd rfl hfirst
        · exact hrest
      split_ifs
      · obtain ⟨r, hr, hdest⟩ := ih hrest (fun heq => hfirst (some.inj heq))
        exact ⟨r, mem_append_right _ hr, hdest⟩
      · exact ih hrest hprevious

theorem printRoutesToHost_eq {dest : Host} {ips : IPAddress × IPAddress}
    (hfind : (input.ip.entry s).find (routed.getFirstHop dest) = some ips) :
    printRoutesToHost s dest routed input.ip =
      .ok (printDestIps ips.1 ips.2 (routed.getDistance dest) none (input.ip.entry dest)) := by
  unfold printRoutesToHost calculateSourceInfo
  rw [hfind]
  rfl

theorem printRoutes_spec (hrouted : Routed input.graph s routed)
    (h : Reads numVertices lines input) (ht : Topology lines)
    (hall : ∀ i < input.graph.vertexCount, Reaches input.graph.Joined s i) :
    ∃ rs, printRoutes routed input.ip = .ok rs ∧ GuidesAll input routed rs := by
  have hsource := hrouted.source
  have hrange : ∀ {i}, i ∈ (List.range routed.vertexCount).filter (· ≠ routed.source) ↔
      i < input.graph.vertexCount ∧ i ≠ s := by
    intro i
    simp [hrouted.vertexCount, hsource]
  have hhost : ∀ {i}, i < input.graph.vertexCount → i ≠ s →
      ∃ ips, (input.ip.entry s).find (routed.getFirstHop i) = some ips ∧
        printRoutesToHost routed.source i routed input.ip =
          .ok (printDestIps ips.1 ips.2 (routed.getDistance i) none (input.ip.entry i)) := by
    intro i hi hne
    obtain ⟨ips, hfind⟩ := hrouted.find_of_reaches h hi hne (hall i hi)
    exact ⟨ips, hfind, hsource.symm ▸ printRoutesToHost_eq hfind⟩
  rcases Outcome.mapM_cases (fun i => printRoutesToHost routed.source i routed input.ip)
    ((List.range routed.vertexCount).filter (· ≠ routed.source)) with
    ⟨routes, hroutes, -, hto, hfrom⟩ | ⟨i, hi, e, he, -⟩
  · refine ⟨routes.flatten, by rw [printRoutes, hroutes]; rfl, ?_⟩
    rw [GuidesAll, hsource]
    intro dest hdest hne hreaches pos hpos hexplicit
    obtain ⟨ips, hfind, hprint⟩ := hhost hdest hne
    -- the route to the address itself is the only one that matches
    have hlast : pos.2.1 ≠ ips.2 := (hexplicit _ (HostEntry.mem_of_find hfind)).symm
    constructor
    · obtain ⟨r, hr, hrdest⟩ := @exists_printDestIps ips.1 _
        (routed.getDistance dest) none _ _ hpos hlast (by simp)
      obtain ⟨y, hy, hyeq⟩ := hto dest (hrange.mpr ⟨hdest, hne⟩)
      rw [hprint] at hyeq
      cases hyeq
      exact ⟨r, mem_flatten.mpr ⟨_, hy, hr⟩, (matches_host_iff (mem_printDestIps hr).1).mpr hrdest⟩
    · intro r hr hmatch _
      obtain ⟨y, hy, hr⟩ := mem_flatten.mp hr
      obtain ⟨i, hi, hyeq⟩ := hfrom y hy
      obtain ⟨hi, hine⟩ := hrange.mp hi
      obtain ⟨ips', hfind', hprint'⟩ := hhost hi hine
      rw [hprint'] at hyeq
      cases hyeq
      obtain ⟨hmask, hhop, pos', hpos', hrdest⟩ := mem_printDestIps hr
      have heq : pos'.2.1 = pos.2.1 := hrdest.symm.trans ((matches_host_iff hmask).mp hmatch)
      obtain rfl := h.entry_unique ht hpos' hpos heq
      exact ⟨ips', hfind', hhop⟩
  · obtain ⟨hi, hne⟩ := hrange.mp hi
    obtain ⟨ips, -, hprint⟩ := hhost hi hne
    rw [hprint] at he
    cases he

theorem printRoutes_fails (hrouted : Routed input.graph s routed)
    (h : Reads numVertices lines input) {i : Host} (hi : i < input.graph.vertexCount)
    (hnot : ¬Reaches input.graph.Joined s i) :
    ∃ dest < input.graph.vertexCount, ¬Reaches input.graph.Joined s dest ∧
      printRoutes routed input.ip = .error (.routeNotFound s dest dest) := by
  have hsource := hrouted.source
  have hrange : ∀ {i}, i ∈ (List.range routed.vertexCount).filter (· ≠ routed.source) ↔
      i < input.graph.vertexCount ∧ i ≠ s := by
    intro i
    simp [hrouted.vertexCount, hsource]
  have hfail : ∀ {i}, i < input.graph.vertexCount → ¬Reaches input.graph.Joined s i →
      printRoutesToHost routed.source i routed input.ip = .error (.routeNotFound s i i) := by
    intro i hi hnot
    obtain ⟨hhop, hfind⟩ := hrouted.find_of_unreached h hi hnot
    unfold printRoutesToHost calculateSourceInfo
    rw [hhop, hsource, hfind]
    rfl
  rcases Outcome.mapM_cases (fun i => printRoutesToHost routed.source i routed input.ip)
    ((List.range routed.vertexCount).filter (· ≠ routed.source)) with
    ⟨routes, -, -, hto, -⟩ | ⟨dest, hdest, e, he, hmap⟩
  · have hne : i ≠ s := by
      rintro rfl
      exact hnot (Reaches.refl i)
    obtain ⟨y, -, hy⟩ := hto i (hrange.mpr ⟨hi, hne⟩)
    rw [hfail hi hnot] at hy
    cases hy
  · obtain ⟨hdest, hne⟩ := hrange.mp hdest
    by_cases hreaches : Reaches input.graph.Joined s dest
    · obtain ⟨ips, hfind⟩ := hrouted.find_of_reaches h hdest hne hreaches
      rw [hsource, printRoutesToHost_eq hfind] at he
      cases he
    · rw [hfail hdest hreaches] at he
      cases he
      exact ⟨dest, hdest, hreaches, by rw [printRoutes, hmap]; rfl⟩

end NoneCompressor

/-! ## With trees -/

theorem subnet_unique {a : IPAddress} {sub sub' : PrivateSubnet} (h : a >>> sub.shift = sub.number)
    (h' : a >>> sub'.shift = sub'.number) : sub = sub' := by
  have hnat : ∀ sub : PrivateSubnet, a >>> sub.shift = sub.number →
      a.toNat / 2 ^ sub.shift = sub.number.toNat := by
    intro sub h
    rw [← h, BitVec.toNat_ushiftRight, Nat.shiftRight_eq_div_pow]
  have hlt := a.isLt
  have h10 : (PrivateSubnet.SUB_10).number.toNat = 10 := by decide
  have h172 : (PrivateSubnet.SUB_172_16).number.toNat = 44048 := by decide
  have h192 : (PrivateSubnet.SUB_192_168).number.toNat = 49320 := by decide
  have hsub := hnat sub h
  have hsub' := hnat sub' h'
  cases sub <;> cases sub' <;>
    simp only [h10, h172, h192, PrivateSubnet.shift, IP_SIZE] at hsub hsub' <;>
    first | rfl | omega

theorem whichSubnet_eq_some_iff {a : IPAddress} {sub : PrivateSubnet} :
    whichSubnet a = some sub ↔ a >>> sub.shift = sub.number := by
  unfold whichSubnet
  constructor
  · intro h
    simpa using List.find?_some h
  · intro h
    have hmem : sub ∈ PrivateSubnet.all := by cases sub <;> decide
    cases hfind : PrivateSubnet.all.find? fun i => a >>> i.shift = i.number with
    | none =>
      have := List.find?_eq_none.mp hfind sub hmem
      simp [h] at this
    | some sub' =>
      have h' : a >>> sub'.shift = sub'.number := by simpa using List.find?_some hfind
      rw [subnet_unique h h']

namespace TreeCompressor

variable {T : Type} {tree : IpTree T}

/-- The addresses of a private network that are added to its tree, with their hops. -/
def addedTo (routed : SingleSource) (entry : HostEntry) (sub : PrivateSubnet)
    (es : List (Host × IPAddress)) : List (IPAddress × Host) :=
  (es.filter fun e => (entry.find (routed.getFirstHop e.1)).isSome ∧ whichSubnet e.2 = some sub).map
    fun e => (e.2, routed.getFirstHop e.1)

theorem foldl_add (routed : SingleSource) (ipMap : HostHostToIpMap) (es : List (Host × IPAddress)) (st : State T)
    (hst : st = es.foldl (fun st e => add tree routed ipMap e.1 e.2 st) ⟨[], fun _ => tree.reset⟩) :
    (∀ sub, st.root sub = (addedTo routed (ipMap.entry routed.source) sub es).foldl
      (fun t e => tree.addRoute e.1 e.2 (IP_SIZE - sub.shift) t) tree.reset) ∧
    ∀ r, r ∈ st.printed ↔ ∃ e ∈ es, ∃ ips, (ipMap.entry routed.source).find (routed.getFirstHop e.1) = some ips ∧
        whichSubnet e.2 = none ∧ r ∈ printRouteToIp ips.1 ips.2 e.2 1 := by
  induction es using List.reverseRecOn generalizing st with
  | nil =>
    subst hst
    exact ⟨fun _ => rfl, by simp⟩
  | append_singleton es e ih =>
    rw [foldl_append, foldl_cons, foldl_nil] at hst
    obtain ⟨hroot, hprinted⟩ := ih _ rfl
    generalize es.foldl _ _ = before at hst hroot hprinted
    unfold add at hst
    cases hfind : (ipMap.entry routed.source).find (routed.getFirstHop e.1) with
    | none =>
      simp only [hfind] at hst
      subst hst
      constructor
      · intro sub
        simp [addedTo, hroot, hfind, filter_append]
      · intro r
        simp [hprinted, hfind, or_and_right, exists_or]
    | some ips =>
      obtain ⟨sourceIp, firstHopIp⟩ := ips
      cases hwhich : whichSubnet e.2 with
      | none =>
        simp only [hfind, hwhich] at hst
        subst hst
        constructor
        · intro sub
          simp [addedTo, hroot, hwhich, filter_append]
        · intro r
          simp [hprinted, hfind, hwhich, or_and_right, exists_or, and_assoc]
      | some sub' =>
        simp only [hfind, hwhich] at hst
        subst hst
        constructor
        · intro sub
          by_cases hsub : sub = sub'
          · subst hsub
            simp [addedTo, hroot, hfind, hwhich, filter_append]
          · simp [addedTo, hroot, hfind, hwhich, filter_append, hsub, Ne.symm hsub]
        · intro r
          simp [hprinted, hwhich, or_and_right, exists_or]

theorem mem_explicitIps {routed : SingleSource} {ipMap : HostHostToIpMap} {e : Host × IPAddress} :
    e ∈ explicitIps routed ipMap ↔ e.1 < routed.vertexCount ∧ e.1 ≠ routed.source ∧
      (∃ pos ∈ ipMap.entry e.1, pos.2.1 = e.2) ∧
      ∀ pos ∈ ipMap.entry routed.source, pos.2.2 ≠ e.2 := by
  obtain ⟨dest, a⟩ := e
  simp only [explicitIps, implicitIp, mem_flatMap, mem_filter, mem_range,
    List.mem_map, decide_eq_true_eq, Prod.mk.injEq]
  constructor
  · rintro ⟨i, ⟨hi, hne⟩, b, ⟨⟨pos, hpos, rfl⟩, hexplicit⟩, rfl, rfl⟩
    exact ⟨hi, hne, ⟨pos, hpos, rfl⟩, fun pos' hpos' heq => hexplicit ⟨pos', hpos', heq⟩⟩
  · rintro ⟨hi, hne, ⟨pos, hpos, rfl⟩, hexplicit⟩
    exact ⟨dest, ⟨hi, hne⟩, pos.2.1, ⟨⟨pos, hpos, rfl⟩, fun ⟨pos', hpos', heq⟩ =>
      hexplicit pos' hpos' heq⟩, rfl, rfl⟩

/-- The table after the addresses of a list were added. -/
def printAdded (tree : IpTree T) (routed : SingleSource) (ipMap : HostHostToIpMap)
    (es : List (Host × IPAddress)) : Except Exception (List Route) := do
  let st := es.foldl (fun st e => add tree routed ipMap e.1 e.2 st) ⟨[], fun _ => tree.reset⟩
  let routes ← PrivateSubnet.all.mapM fun loop =>
    tree.printRoutes ipMap routed.source loop.number (st.root loop)
  return st.printed ++ routes.flatten

/-- The parts of the table: a route to each address that is in no private network, and for
    each private network the routes that its tree prints. -/
structure Parts (tree : IpTree T) (routed : SingleSource) (ipMap : HostHostToIpMap)
    (es : List (Host × IPAddress)) (printed : List Route) (nets : PrivateSubnet → List Route) :
    Prop where
  mem_printed : ∀ r, r ∈ printed ↔ ∃ e ∈ es, ∃ ips,
    (ipMap.entry routed.source).find (routed.getFirstHop e.1) = some ips ∧
      whichSubnet e.2 = none ∧ r ∈ printRouteToIp ips.1 ips.2 e.2 1
  net : ∀ sub, tree.printRoutes ipMap routed.source sub.number
    ((addedTo routed (ipMap.entry routed.source) sub es).foldl
      (fun t e => tree.addRoute e.1 e.2 (IP_SIZE - sub.shift) t) tree.reset) = .ok (nets sub)
  serves : ∀ sub, Serves (ipMap.entry routed.source) sub.shift sub.number
    (addedTo routed (ipMap.entry routed.source) sub es) (nets sub)

variable {ipMap : HostHostToIpMap} {es : List (Host × IPAddress)} {printed : List Route}
  {nets : PrivateSubnet → List Route}

/-- Whatever is added, there is a table. -/
theorem printAdded_parts (hgood : tree.Good) (es : List (Host × IPAddress))
    (hneighbour : ∀ hop, ((ipMap.entry routed.source).find hop).isSome → hop < INT_MAX) :
    ∃ printed nets, printAdded tree routed ipMap es = .ok (printed ++ (PrivateSubnet.all.map nets).flatten) ∧
      Parts tree routed ipMap es printed nets := by
  obtain ⟨st, hst⟩ : ∃ st, st = es.foldl (fun st e => add tree routed ipMap e.1 e.2 st)
      ⟨[], fun _ => tree.reset⟩ := ⟨_, rfl⟩
  obtain ⟨hroot, hprinted⟩ := foldl_add routed ipMap es st hst
  -- every tree serves the addresses of its network
  have htree : ∀ sub, ∃ rs, tree.printRoutes ipMap routed.source sub.number (st.root sub) = .ok rs ∧
      Serves (ipMap.entry routed.source) sub.shift sub.number
        (addedTo routed (ipMap.entry routed.source) sub es) rs := by
    intro sub
    rw [hroot sub]
    refine hgood ipMap routed.source sub.shift sub.number _ (by cases sub <;> decide)
      (by cases sub <;> decide) ?_ ?_
    · intro e he
      obtain ⟨e', he', rfl⟩ := List.mem_map.mp he
      have := (mem_filter.mp he').2
      exact whichSubnet_eq_some_iff.mp (of_decide_eq_true this).2
    · intro e he
      obtain ⟨e', he', rfl⟩ := List.mem_map.mp he
      have hsome := (of_decide_eq_true (mem_filter.mp he').2).1
      exact ⟨hneighbour _ hsome, isSome_iff_exists.mp hsome⟩
  choose nets hnets hserves using htree
  refine ⟨st.printed, nets, ?_, hprinted, fun sub => hroot sub ▸ hnets sub, hserves⟩
  unfold printAdded
  rw [← hst]
  simp only [PrivateSubnet.all, mapM_cons, mapM_nil, hnets]
  rfl

/-- An address that is added with one hop only is sent to that hop. -/
theorem Parts.guides (hparts : Parts tree routed ipMap es printed nets) {e : Host × IPAddress}
    (he : e ∈ es) {ips : IPAddress × IPAddress}
    (hfind : (ipMap.entry routed.source).find (routed.getFirstHop e.1) = some ips)
    (hone : ∀ e' ∈ es, e'.2 = e.2 → routed.getFirstHop e'.1 = routed.getFirstHop e.1)
    (hexplicit : ∀ pos ∈ ipMap.entry routed.source, pos.2.2 ≠ e.2) :
    Guides (ipMap.entry routed.source) (printed ++ (PrivateSubnet.all.map nets).flatten) e.2
      (routed.getFirstHop e.1) := by
  have hhost : ∀ r ∈ printed, r.Matches e.2 → whichSubnet e.2 = none ∧ r.nextHop = ips.2 := by
    intro r hr hmatch
    obtain ⟨e', he', ips', hfind', hwhich, hr⟩ := (hparts.mem_printed r).mp hr
    obtain ⟨hrdest, hmask, hhop, -⟩ := mem_printRouteToIp hr
    have heq : e'.2 = e.2 := hrdest.symm.trans ((matches_host_iff hmask).mp hmatch)
    rw [hone e' he' heq, hfind] at hfind'
    cases hfind'
    exact ⟨heq ▸ hwhich, hhop⟩
  have hnet : ∀ r ∈ (PrivateSubnet.all.map nets).flatten, r.Matches e.2 →
      ∃ sub, whichSubnet e.2 = some sub ∧ r ∈ nets sub := by
    intro r hr hmatch
    obtain ⟨y, hy, hr⟩ := mem_flatten.mp hr
    obtain ⟨sub, -, rfl⟩ := List.mem_map.mp hy
    exact ⟨sub, whichSubnet_eq_some_iff.mpr ((hparts.serves sub).within r hr _ hmatch), hr⟩
  cases hwhich : whichSubnet e.2 with
  | none =>
    constructor
    · obtain ⟨r, hr⟩ := @exists_printRouteToIp ips.1 _ _ 1
        (hexplicit _ (HostEntry.mem_of_find hfind)).symm
      obtain ⟨hrdest, hmask, -⟩ := mem_printRouteToIp hr
      exact ⟨r, mem_append_left _ ((hparts.mem_printed r).mpr ⟨_, he, ips, hfind, hwhich, hr⟩),
        (matches_host_iff hmask).mpr hrdest⟩
    · intro r hr hmatch _
      rcases mem_append.mp hr with hr | hr
      · exact ⟨ips, hfind, (hhost r hr hmatch).2⟩
      · obtain ⟨sub, hsub, -⟩ := hnet r hr hmatch
        rw [hwhich] at hsub
        cases hsub
  | some sub =>
    have hall : nets sub ∈ PrivateSubnet.all.map nets := by cases sub <;> simp [PrivateSubnet.all]
    have hserved := (hparts.serves sub).served e.2 (routed.getFirstHop e.1)
      (List.mem_map.mpr ⟨_, mem_filter.mpr ⟨he, by simp [hfind, hwhich]⟩, rfl⟩)
      (by
        intro x hx
        obtain ⟨e', he', heq⟩ := List.mem_map.mp hx
        obtain ⟨ha, rfl⟩ := Prod.mk.inj heq
        exact hone e' (mem_filter.mp he').1 ha)
      hexplicit
    constructor
    · obtain ⟨r, hr, hmatch⟩ := hserved.matched
      exact ⟨r, mem_append_right _ (mem_flatten.mpr ⟨_, hall, hr⟩), hmatch⟩
    · intro r hr hmatch hlongest
      rcases mem_append.mp hr with hr | hr
      · rw [(hhost r hr hmatch).1] at hwhich
        cases hwhich
      · obtain ⟨sub', hsub', hr⟩ := hnet r hr hmatch
        rw [hwhich] at hsub'
        cases hsub'
        exact hserved.longest r hr hmatch fun r' hr' hmatch' =>
          hlongest r' (mem_append_right _ (mem_flatten.mpr ⟨_, hall, hr'⟩)) hmatch'

theorem printRoutes_spec (hgood : tree.Good) (hrouted : Routed input.graph s routed)
    (h : Reads numVertices lines input) (ht : Topology lines) (hmax : numVertices ≤ INT_MAX) :
    ∃ rs, printRoutes tree routed input.ip = .ok rs ∧ GuidesAll input routed rs := by
  have hsource := hrouted.source
  have hneighbour : ∀ hop, ((input.ip.entry routed.source).find hop).isSome → hop < INT_MAX := by
    intro hop hsome
    obtain ⟨ips, hfind⟩ := isSome_iff_exists.mp hsome
    obtain ⟨host, hhost, rfl, -⟩ := h.host_of_entry (h.mem_entry_swap (HostEntry.mem_of_find hfind))
    exact (h.number_lt hhost).trans_le (h.count.trans hmax)
  obtain ⟨printed, nets, hprint, hparts⟩ := printAdded_parts hgood
    (explicitIps routed input.ip) hneighbour
  refine ⟨_, hprint, ?_⟩
  intro dest hdest hne hreaches pos hpos hexplicit
  have hmem : (dest, pos.2.1) ∈ explicitIps routed input.ip :=
    mem_explicitIps.mpr ⟨hrouted.vertexCount ▸ hdest, hne, ⟨pos, hpos, rfl⟩, hexplicit⟩
  obtain ⟨ips, hfind⟩ := hrouted.find_of_reaches h hdest (hsource ▸ hne) (hsource ▸ hreaches)
  rw [← hsource] at hfind
  refine hparts.guides hmem hfind ?_ hexplicit
  -- the address is added with one hop only
  intro e he heq
  obtain ⟨-, -, ⟨pos', hpos', heq'⟩, -⟩ := mem_explicitIps.mp he
  rw [h.entry_unique ht hpos' hpos (heq'.trans heq)]

end TreeCompressor

end

end Dijkstra

end Emulab
