import Emulab.Dijkstra.Tables

/-! # Delivery

  Following the printed tables every hop is nearer to the host that has the
  address, so no host is visited twice and the address is reached.
-/

namespace Emulab

open List Option

namespace Dijkstra

open ShortestPath

section

variable {numVertices : Nat} {lines : List Line} {input : Input}

/-! ## Next hops -/

theorem interfaces_eq (ht : Topology lines) {host : String} {ip : IPAddress}
    (howns : Owns lines host ip) : interfaces lines ip = some host := by
  have howner : ∀ host', interfaces lines ip = some host' → Owns lines host' ip := by
    intro host' heq
    obtain ⟨l, hl, hsome⟩ := exists_of_findSome?_eq_some heq
    split_ifs at hsome with hfirst hsecond
    · exact ⟨l, hl, Or.inl ⟨some.inj hsome, hfirst⟩⟩
    · exact ⟨l, hl, Or.inr ⟨some.inj hsome, hsecond⟩⟩
  cases heq : interfaces lines ip with
  | none =>
    obtain ⟨l, hl, hat⟩ := howns
    have hnone := List.findSome?_eq_none_iff.mp heq l hl
    split_ifs at hnone with hfirst hsecond
    rcases hat with ⟨-, hip⟩ | ⟨-, hip⟩
    · exact absurd hip hfirst
    · exact absurd hip hsecond
  | some host' => rw [ht.owner_unique host host' ip howns (howner host' heq)]

/-- The section of every host has a table that guides. -/
def Printed (lines : List Line) (input : Input) (sections : List Section) : Prop :=
  ∀ host ∈ hosts lines, ∃ routed, Routed input.graph (Reads.number input host) routed ∧
    GuidesAll input routed (routesOf sections host)

/-- The next hop is a neighbour, and nearer to the host that has the address. -/
theorem nextIP_spec (h : Reads numVertices lines input) (ht : Topology lines)
    {sections : List Section} (hprinted : Printed lines input sections) {dest current : String}
    {ip : IPAddress} (howns : Owns lines dest ip) (hcurrent : current ∈ hosts lines) (hne : current ≠ dest)
    (hreaches : Reaches input.graph.Joined (Reads.number input current) (Reads.number input dest)) :
    ∃ next nextHost, nextIP lines sections ip current = some next ∧
      next ∈ neighborIPs lines current ∧ interfaces lines next = some nextHost ∧
      nextHost ∈ hosts lines ∧
      Reaches input.graph.Joined (Reads.number input nextHost) (Reads.number input dest) ∧
      distance input.graph.Joined (Reads.number input nextHost) (Reads.number input dest) <
        distance input.graph.Joined (Reads.number input current) (Reads.number input dest) := by
  have hdest := Reads.host_of_owns howns
  have hpos := h.joined_pos ht.weight_pos
  have hnumber : Reads.number input dest ≠ Reads.number input current :=
    fun heq => hne (h.number_inj hcurrent heq.symm)
  unfold nextIP
  by_cases hneighbor : ip ∈ neighborIPs lines current
  · -- a directly attached link
    rw [if_pos hneighbor]
    refine ⟨ip, dest, rfl, hneighbor, interfaces_eq ht howns, hdest, Reaches.refl _, ?_⟩
    rw [distance_self]
    exact distance_pos hpos hreaches hnumber.symm
  · rw [if_neg hneighbor]
    obtain ⟨routed, hrouted, hguides⟩ := hprinted current hcurrent
    have hsource := hrouted.source
    have hlt : Reads.number input dest < input.graph.vertexCount := by
      rw [h.vertexCount]
      exact (h.number_lt hdest).trans_le h.count
    obtain ⟨pos, hmem, rfl⟩ := (h.owns_iff hdest).mp howns
    have hguide := hguides _ hlt (hsource ▸ hnumber) (hsource ▸ hreaches) pos hmem
      (fun pos' hpos' heq => hneighbor ((h.mem_neighborIPs_iff hcurrent).mpr ⟨pos', hsource ▸ hpos', heq⟩))
    rw [hsource] at hguide
    obtain ⟨r, hr, hmatch, hlongest, hroute⟩ := routeTo_spec hguide.matched
    obtain ⟨ips, hfind, hhop⟩ := hguide.longest r hr hmatch hlongest
    -- the next hop is the address at the other end of a link to the first hop
    have hentry := HostEntry.mem_of_find hfind
    obtain ⟨nextHost, hhost, hnext, hnextOwns⟩ := h.host_of_entry (h.mem_entry_swap hentry)
    obtain ⟨w, c, hjoined, hwalk, hleast⟩ := hrouted.reached _ hlt hnumber hreaches
    rw [← hnext] at hjoined hwalk
    exact ⟨ips.2, nextHost, by rw [hroute, hhop],
      (h.mem_neighborIPs_iff hcurrent).mpr ⟨_, hentry, rfl⟩, interfaces_eq ht hnextOwns, hhost,
      ⟨c, hwalk⟩, distance_lt hpos hjoined hwalk hleast⟩

/-! ## The way -/

/-- The state of the loop: the hosts visited are farther from the end than the current one. -/
structure OnWay (lines : List Line) (input : Input) (dest : String) (visited : List String)
    (current : String) : Prop where
  host : current ∈ hosts lines
  reaches : Reaches input.graph.Joined (Reads.number input current) (Reads.number input dest)
  head : visited.head? = some current
  hosts : ∀ v ∈ visited, v ∈ hosts lines
  nodup : visited.Nodup
  farther : ∀ v ∈ visited, distance input.graph.Joined (Reads.number input current) (Reads.number input dest) ≤
      distance input.graph.Joined (Reads.number input v) (Reads.number input dest)

theorem OnWay.next {dest current next : String} {visited : List String}
    (h : OnWay lines input dest visited current) (hhost : next ∈ Dijkstra.hosts lines)
    (hreaches : Reaches input.graph.Joined (Reads.number input next) (Reads.number input dest))
    (hlt : distance input.graph.Joined (Reads.number input next) (Reads.number input dest) <
      distance input.graph.Joined (Reads.number input current) (Reads.number input dest)) :
    next ∉ visited ∧ OnWay lines input dest (next :: visited) next := by
  have hnew : next ∉ visited := fun hmem => absurd (h.farther next hmem) (by omega)
  refine ⟨hnew, hhost, hreaches, rfl, ?_, nodup_cons.mpr ⟨hnew, h.nodup⟩, ?_⟩
  · intro v hv
    rcases mem_cons.mp hv with rfl | hv
    · exact hhost
    · exact h.hosts v hv
  · intro v hv
    rcases mem_cons.mp hv with rfl | hv
    · exact le_rfl
    · have := h.farther v hv
      omega

/-- The loop ends at the host that has the address. -/
theorem followFrom_spec (h : Reads numVertices lines input) (ht : Topology lines)
    {sections : List Section} (hprinted : Printed lines input sections) {dest : String}
    {ip : IPAddress} (howns : Owns lines dest ip) {fuel : Nat} {visited : List String}
    {current : String} (hway : OnWay lines input dest visited current)
    (hfuel : (hosts lines).length < fuel + visited.length) :
    ∃ path, followFrom lines sections ip dest fuel visited current = .ok path ∧ path.Nodup ∧
      path.head? = visited.getLast? ∧ path.getLast? = some dest := by
  induction fuel generalizing visited current with
  | zero =>
    -- more hosts would have been visited than there are
    have := (subperm_of_subset hway.nodup hway.hosts).length_le
    omega
  | succ fuel ih =>
    unfold followFrom
    by_cases harrived : current = dest
    · rw [if_pos harrived]
      refine ⟨visited.reverse, rfl, nodup_reverse.mpr hway.nodup, by simp, ?_⟩
      rw [List.getLast?_reverse, hway.head, harrived]
    · rw [if_neg harrived]
      obtain ⟨next, nextHost, hnext, hneighbor, howner, hhost, hreaches, hlt⟩ :=
        nextIP_spec h ht hprinted howns hway.host harrived hway.reaches
      obtain ⟨hnew, hway'⟩ := hway.next hhost hreaches hlt
      obtain ⟨path, hpath, hnodup, hhead, hlast⟩ := ih hway'
        (by rw [length_cons]; omega)
      refine ⟨path, ?_, hnodup, ?_, hlast⟩
      · have hcheck : checkHop lines ip current next visited = .ok nextHost := by
          unfold checkHop
          rw [howner]
          simp [hneighbor, hnew]
        rw [hnext]
        dsimp only
        rw [hcheck]
        exact hpath
      · rw [hhead]
        cases visited with
        | nil => exact absurd hway.head (by simp)
        | cons v rest => rfl

theorem delivers_of_printed (h : Reads numVertices lines input) (ht : Topology lines)
    {sections : List Section} (hlength : (hosts lines).length ≤ sections.length)
    (hprinted : Printed lines input sections) : Delivers lines sections := by
  intro source hsource dest ip howns hconnected
  have hway : OnWay lines input dest [source] source :=
    { host := hsource
      reaches := h.reaches_of_connected hconnected
      head := rfl
      hosts := by simpa using hsource
      nodup := nodup_singleton source
      farther := by simp }
  exact followFrom_spec h ht hprinted howns hway (by simp; omega)

end

/-! ## The whole program -/

section

variable {dijkstra_shortest_paths : Graph → Host → Paths} {numVertices : Nat} {lines : List Line}
  {input : Input} {s : Host} {routed : SingleSource}

variable {compress : Compress}

theorem printRoutes_spec (hrouted : Routed input.graph s routed)
    (h : Reads numVertices lines input) (ht : Topology lines) (hmax : numVertices ≤ INT_MAX)
    (hall : compress = .none → ∀ i < input.graph.vertexCount, Reaches input.graph.Joined s i) :
    ∃ rs, compress.printRoutes routed input.ip = .ok rs ∧ GuidesAll input routed rs := by
  cases compress with
  | none => exact NoneCompressor.printRoutes_spec hrouted h ht (hall rfl)
  | vote => exact TreeCompressor.printRoutes_spec VoteIpTree.good hrouted h ht hmax
  | optimal => exact TreeCompressor.printRoutes_spec OptimalIpTree.good hrouted h ht hmax

variable (dijkstra_shortest_paths) in
def runSource (compress : Compress) (input : Input) (i : Host) : Except Exception Section := do
  let graph ← route dijkstra_shortest_paths input.graph i
  let routes ← compress.printRoutes graph input.ip
  return ⟨some (input.nameToIndex.getD i ""), routes⟩

theorem runSource_eq {i : Host} (hroute : route dijkstra_shortest_paths input.graph i = .ok routed) :
    runSource dijkstra_shortest_paths compress input i =
      (compress.printRoutes routed input.ip).map fun routes => ⟨some (input.nameToIndex.getD i ""), routes⟩ := by
  unfold runSource
  rw [hroute]
  cases h : compress.printRoutes routed input.ip <;> simp [h, bind, Except.bind, Except.map, pure,
    Except.pure]

/-! ### Labels of numbers -/

theorem Reads.length_names (h : Reads numVertices lines input) : input.nameToIndex.length = (hosts lines).length :=
  le_antisymm (subperm_of_subset h.nodup fun name hname => (h.named name).mp hname).length_le
    (subperm_of_subset (nodup_dedup _) fun name hname => (h.named name).mpr hname).length_le

theorem Reads.label_of_lt (h : Reads numVertices lines input) {i : Host} (hi : i < (hosts lines).length) :
    ∃ host ∈ hosts lines, Reads.number input host = i ∧ ∀ unknown, input.nameToIndex.getD i unknown = host := by
  have hlt : i < input.nameToIndex.length := h.length_names ▸ hi
  refine ⟨input.nameToIndex[i], (h.named _).mp (getElem_mem hlt), ?_, ?_⟩
  · exact h.nodup.idxOf_getElem i hlt
  · intro unknown
    rw [getD_eq_getElem?_getD, List.getElem?_eq_getElem hlt]
    rfl

/-! ### All sources -/

theorem printed_of_runs (h : Reads numVertices lines input) {sections : List Section}
    (hruns : ∀ i < (hosts lines).length, ∃ routed rs,
      route dijkstra_shortest_paths input.graph i = .ok routed ∧ Routed input.graph i routed ∧
        compress.printRoutes routed input.ip = .ok rs ∧ GuidesAll input routed rs)
    (hto : ∀ i < (hosts lines).length, ∃ y ∈ sections, runSource dijkstra_shortest_paths compress input i = .ok y)
    (hfrom : ∀ y ∈ sections, ∃ i < (hosts lines).length,
      runSource dijkstra_shortest_paths compress input i = .ok y) : Printed lines input sections := by
  -- what is printed for a number is under its label
  have hsection : ∀ i < (hosts lines).length, ∀ y, runSource dijkstra_shortest_paths compress input i = .ok y →
        ∃ host ∈ hosts lines, Reads.number input host = i ∧ y.header = some host ∧
          ∃ routed, Routed input.graph i routed ∧ GuidesAll input routed y.routes := by
    intro i hi y hy
    obtain ⟨host, hhost, hnumber, hlabel⟩ := h.label_of_lt hi
    obtain ⟨routed, rs, hroute, hrouted, hprint, hguides⟩ := hruns i hi
    rw [runSource_eq hroute, hprint] at hy
    cases hy
    exact ⟨host, hhost, hnumber, by rw [hlabel], routed, hrouted, hguides⟩
  intro host hhost
  have hlt : Reads.number input host < (hosts lines).length := h.length_names ▸ h.number_lt hhost
  obtain ⟨y, hy, hrun⟩ := hto _ hlt
  obtain ⟨host', hhost', hnumber, hheader, -⟩ := hsection _ hlt y hrun
  obtain rfl := h.number_inj hhost' hnumber
  obtain ⟨found, hfound⟩ : ∃ found, sections.find? (·.header = some host') = some found := by
    rw [← isSome_iff_exists, List.find?_isSome]
    exact ⟨y, hy, by simpa using hheader⟩
  -- the section that is found is the one of this host
  obtain ⟨i, hi, hrun'⟩ := hfrom found (mem_of_find?_eq_some hfound)
  obtain ⟨host'', hhost'', hnumber', hheader', routed, hrouted, hguides⟩ := hsection i hi found hrun'
  have hkey : found.header = some host' := by simpa using List.find?_some hfound
  rw [hkey] at hheader'
  cases hheader'
  refine ⟨routed, hnumber' ▸ hrouted, ?_⟩
  unfold routesOf
  rw [hfound]
  exact hguides

/-- The tables of all hosts are printed one after the other. -/
theorem execute_all {n : Nat} {input : Input}
    (hread : inputEdges n lines = .ok input) (hcount : input.graph.vertexCount = n) :
    execute dijkstra_shortest_paths ⟨none, compress⟩ n lines =
      match (List.range n).mapM (runSource dijkstra_shortest_paths compress input) with
      | .error error => .error (error.what input.nameToIndex)
      | .ok sections => .ok sections := by
  unfold execute
  rw [hread]
  dsimp only
  unfold printAllRoutes
  dsimp only
  rw [hcount]
  rfl

/-- With trees every address is delivered, whatever the topology. Without them there are
    tables only if every two hosts are connected: otherwise the program ends with an error that
    names two hosts which are not. -/
theorem routes_delivered {compress : Compress} (ht : Topology lines) (hmax : (hosts lines).length ≤ INT_MAX)
    (hdijkstra : ∀ input, inputEdges (hosts lines).length lines = .ok input →
      ∀ source < (hosts lines).length, IsTree input.graph.Joined source
        (dijkstra_shortest_paths input.graph source).1
        (dijkstra_shortest_paths input.graph source).2) :
    ((compress = .none → ∀ host ∈ hosts lines, ∀ host' ∈ hosts lines, Connected lines host host') →
      ∃ sections, execute dijkstra_shortest_paths ⟨none, compress⟩ (hosts lines).length lines =
        .ok sections ∧ Delivers lines sections) ∧
    (compress = .none → (∃ host ∈ hosts lines, ∃ host' ∈ hosts lines, ¬Connected lines host host') →
      ∃ host ∈ hosts lines, ∃ host' ∈ hosts lines, ¬Connected lines host host' ∧
        execute dijkstra_shortest_paths ⟨none, compress⟩ (hosts lines).length lines =
          .error (setMessage host host' host')) := by
  obtain ⟨input, hread, h⟩ := @inputEdges_spec (hosts lines).length lines le_rfl
  have hpos := h.joined_pos ht.weight_pos
  have hcount := h.vertexCount
  have hroute : ∀ i < (hosts lines).length, ∃ routed,
      route dijkstra_shortest_paths input.graph i = .ok routed ∧ Routed input.graph i routed :=
    fun i hi => route_spec hpos (hdijkstra input hread i hi)
  rw [execute_all hread hcount]
  constructor
  · intro hconnected
    have hruns : ∀ i < (hosts lines).length, ∃ routed rs,
        route dijkstra_shortest_paths input.graph i = .ok routed ∧ Routed input.graph i routed ∧
          compress.printRoutes routed input.ip = .ok rs ∧ GuidesAll input routed rs := by
      intro i hi
      obtain ⟨routed, hrun, hrouted⟩ := hroute i hi
      obtain ⟨rs, hprint, hguides⟩ : ∃ rs, compress.printRoutes routed input.ip = .ok rs ∧
          GuidesAll input routed rs := printRoutes_spec hrouted h ht hmax (by
        intro hnone j hj
        obtain ⟨host, hhost, rfl, -⟩ := h.label_of_lt hi
        obtain ⟨host', hhost', rfl, -⟩ := h.label_of_lt (hcount ▸ hj)
        exact h.reaches_of_connected (hconnected hnone host hhost host' hhost'))
      exact ⟨routed, rs, hrun, hrouted, hprint, hguides⟩
    rcases Outcome.mapM_cases (runSource dijkstra_shortest_paths compress input)
      (List.range (hosts lines).length) with
      ⟨sections, hsections, hlength, hto, hfrom⟩ | ⟨i, hi, e, he, -⟩
    · refine ⟨sections, by rw [hsections], delivers_of_printed h ht (by simp [hlength]) ?_⟩
      refine printed_of_runs h hruns (fun i hi => hto i (mem_range.mpr hi)) ?_
      intro y hy
      obtain ⟨i, hi, hrun⟩ := hfrom y hy
      exact ⟨i, mem_range.mp hi, hrun⟩
    · obtain ⟨routed, rs, hrun, -, hprint, -⟩ := hruns i (mem_range.mp hi)
      rw [runSource_eq hrun, hprint] at he
      cases he
  · rintro rfl ⟨host, hhost, host', hhost', hnot⟩
    have hlt : ∀ {host}, host ∈ hosts lines → Reads.number input host < (hosts lines).length :=
      fun hhost => h.length_names ▸ h.number_lt hhost
    have hfails : ∀ i < (hosts lines).length, ∀ routed, Routed input.graph i routed →
        ∀ j < (hosts lines).length, ¬Reaches input.graph.Joined i j →
        ∃ dest < (hosts lines).length, ¬Reaches input.graph.Joined i dest ∧
          Compress.none.printRoutes routed input.ip = .error (.routeNotFound i dest dest) := by
      intro i hi routed hrouted j hj hunreached
      rw [← hcount] at hj ⊢
      exact NoneCompressor.printRoutes_fails hrouted h hj hunreached
    rcases Outcome.mapM_cases (runSource dijkstra_shortest_paths .none input)
      (List.range (hosts lines).length) with ⟨sections, -, -, hto, -⟩ | ⟨i, hi, e, he, hmap⟩
    · -- the host has no table
      obtain ⟨routed, hrun, hrouted⟩ := hroute _ (hlt hhost)
      obtain ⟨dest, -, -, hfail⟩ := hfails _ (hlt hhost) routed hrouted _ (hlt hhost')
        (by
          rintro ⟨c, hwalk⟩
          exact hnot (h.connected_of_walk hwalk host hhost host' hhost' rfl rfl))
      obtain ⟨y, -, hy⟩ := hto _ (mem_range.mpr (hlt hhost))
      rw [runSource_eq hrun, hfail] at hy
      cases hy
    · have hi := mem_range.mp hi
      obtain ⟨routed, hrun, hrouted⟩ := hroute i hi
      by_cases hall : ∀ j < input.graph.vertexCount, Reaches input.graph.Joined i j
      · obtain ⟨rs, hprint, -⟩ : ∃ rs, Compress.none.printRoutes routed input.ip = .ok rs ∧
            GuidesAll input routed rs := printRoutes_spec hrouted h ht hmax fun _ => hall
        rw [runSource_eq hrun, hprint] at he
        cases he
      · obtain ⟨j, hj⟩ := not_forall.mp hall
        obtain ⟨hj, hunreached⟩ := Classical.not_imp.mp hj
        obtain ⟨dest, hdest, hnotreached, hfail⟩ := hfails i hi routed hrouted j (hcount ▸ hj)
          hunreached
        rw [runSource_eq hrun, hfail] at he
        cases he
        obtain ⟨source, hsource, hnumber, hlabel⟩ := h.label_of_lt hi
        obtain ⟨target, htarget, hnumber', hlabel'⟩ := h.label_of_lt hdest
        refine ⟨source, hsource, target, htarget, ?_, ?_⟩
        · intro hconnected
          apply hnotreached
          rw [← hnumber, ← hnumber']
          exact h.reaches_of_connected hconnected
        · rw [hmap]
          show Except.error (setMessage (reverseMap i input.nameToIndex)
            (reverseMap dest input.nameToIndex) (reverseMap dest input.nameToIndex)) = _
          rw [reverseMap, reverseMap, hlabel, hlabel']

end

/-! ## Two links without a connection -/

/-- Two links that have no host in common. -/
def twoLinks : List Line :=
  [⟨"A", 0x0a000101, "B", 0x0a000102, 1⟩, ⟨"C", 0x0a000201, "D", 0x0a000202, 1⟩]

/-- The shortest paths there: the other end of a link is reached from its one end. -/
def twoLinksPaths (_graph : Graph) (source : Host) : Paths :=
  (fun v => if v / 2 = source / 2 then source else v,
    fun v => if v = source then 0 else if v / 2 = source / 2 then 1 else INT_MAX)

theorem topology_twoLinks : Topology twoLinks where
  weight_pos := by decide
  owner_unique := by
    rintro host host' ip ⟨l, hl, hat⟩ ⟨l', hl', hat'⟩
    simp only [twoLinks, mem_cons, not_mem_nil, or_false] at hl hl'
    rcases hl with rfl | rfl <;> rcases hl' with rfl | rfl <;>
      rcases hat with ⟨rfl, rfl⟩ | ⟨rfl, rfl⟩ <;> rcases hat' with ⟨rfl, hip⟩ | ⟨rfl, hip⟩ <;>
      first | rfl | exact absurd hip (by decide)

theorem joined_twoLinks {input : Input} (hread : inputEdges 4 twoLinks = .ok input) {i j w : Nat} :
    input.graph.Joined i j w ↔ w = 1 ∧ i < 4 ∧ i ≠ j ∧ i / 2 = j / 2 := by
  have hedges : input.graph.edges = [⟨0, 1, 1⟩, ⟨2, 3, 1⟩] := by
    have hinput : (inputEdges 4 twoLinks).map (·.graph.edges) = .ok [⟨0, 1, 1⟩, ⟨2, 3, 1⟩] := by
      decide
    rw [hread] at hinput
    exact Except.ok.inj hinput
  unfold Graph.Joined
  rw [hedges]
  simp only [mem_cons, not_mem_nil, or_false, exists_eq_or_imp, exists_eq_left]
  constructor
  · rintro (⟨rfl, ⟨rfl, rfl⟩ | ⟨rfl, rfl⟩⟩ | ⟨rfl, ⟨rfl, rfl⟩ | ⟨rfl, rfl⟩⟩) <;> decide
  · rintro ⟨rfl, hi, hne, hhalf⟩
    have hends : ∀ i j : Nat, i < 4 → i ≠ j → i / 2 = j / 2 →
        (i = 0 ∧ j = 1) ∨ (i = 1 ∧ j = 0) ∨ (i = 2 ∧ j = 3) ∨ (i = 3 ∧ j = 2) := by omega
    rcases hends i j hi hne hhalf with ⟨rfl, rfl⟩ | ⟨rfl, rfl⟩ | ⟨rfl, rfl⟩ | ⟨rfl, rfl⟩ <;> simp

theorem isTree_twoLinks {input : Input} (hread : inputEdges 4 twoLinks = .ok input) {s : Host}
    (hs : s < 4) : IsTree input.graph.Joined s (twoLinksPaths input.graph s).1
      (twoLinksPaths input.graph s).2 := by
  have hjoined := @joined_twoLinks input hread
  have hhalf : ∀ {u v c}, Walk input.graph.Joined u v c → u / 2 = v / 2 := by
    intro u v c hwalk
    induction hwalk with
    | nil v => rfl
    | cons he _ ih => exact (hjoined.mp he).2.2.2.trans ih
  have hpartner : ∀ v, v / 2 = s / 2 → v ≠ s → input.graph.Joined s v 1 :=
    fun v hv hne => hjoined.mpr ⟨rfl, hs, hne.symm, hv.symm⟩
  have hreaches : ∀ v, v / 2 = s / 2 → Reaches input.graph.Joined s v := by
    intro v hv
    by_cases hne : v = s
    · exact hne ▸ Reaches.refl _
    · exact ⟨1, Walk.single (hpartner v hv hne)⟩
  refine ⟨by simp [twoLinksPaths], ?_, ?_, ?_⟩
  · intro v hnot
    have hfar : ¬v / 2 = s / 2 := fun hv => hnot (hreaches v hv)
    simp [twoLinksPaths, hfar]
  · rintro v ⟨c, hwalk⟩
    have hv : v / 2 = s / 2 := (hhalf hwalk).symm
    by_cases hne : v = s
    · subst hne
      simp only [twoLinksPaths, if_true]
      exact ⟨Walk.nil v, fun c _ => Nat.zero_le c⟩
    · simp only [twoLinksPaths, hne, hv, if_true, if_false]
      refine ⟨Walk.single (hpartner v hv hne), ?_⟩
      rintro c (_ | ⟨he, _⟩)
      · exact absurd rfl hne
      · have := (hjoined.mp he).1
        omega
  · rintro v ⟨c, hwalk⟩ hne
    have hv : v / 2 = s / 2 := (hhalf hwalk).symm
    simp only [twoLinksPaths, hne, hv, if_true, if_false]
    exact ⟨Reaches.refl s, 1, hpartner v hv hne, rfl⟩

/-- The routes to one of the hosts, with the voting trees. -/
theorem routes_delivered_twoLinks :
    ∃ sections, execute twoLinksPaths ⟨none, .vote⟩ (hosts twoLinks).length twoLinks = .ok sections ∧
      Delivers twoLinks sections :=
  (routes_delivered topology_twoLinks (by decide) (by
    intro input hread source hsource
    exact isTree_twoLinks hread hsource)).1 (by intro h; cases h)

/-- Without compression nothing is delivered: there is no table of a host that does not reach all others. -/
theorem twoLinks_not_delivered : Topology twoLinks ∧
      (∀ input, inputEdges (hosts twoLinks).length twoLinks = .ok input →
        ∀ source < (hosts twoLinks).length, IsTree input.graph.Joined source
          (twoLinksPaths input.graph source).1 (twoLinksPaths input.graph source).2) ∧
      ¬∃ sections, execute twoLinksPaths ⟨none, .none⟩ (hosts twoLinks).length twoLinks =
        .ok sections ∧ Delivers twoLinks sections := by
  refine ⟨topology_twoLinks, fun input hread source hsource => isTree_twoLinks hread hsource, ?_⟩
  rintro ⟨sections, hok, -⟩
  have hfails : (execute twoLinksPaths ⟨none, .none⟩ (hosts twoLinks).length twoLinks).isOk = false := by
    decide
  rw [hok] at hfails
  cases hfails

end Dijkstra

end Emulab
