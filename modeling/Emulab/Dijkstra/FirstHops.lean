import Emulab.Dijkstra.Input

/-! # First hops

  Walks of the graph are the ways of the topology, and the entries of a host
  are the links to its neighbours. For a host that is reached the first hop
  is a neighbour on a shortest path, a host that is not reached is its own.
-/

namespace Emulab

open List

namespace Dijkstra

open ShortestPath

/-! ## Numbers and labels -/

namespace Reads

variable {numVertices : Nat} {lines : List Line} {input : Input}

abbrev number (input : Input) (host : String) : Host := input.nameToIndex.idxOf host

section

variable (h : Reads numVertices lines input)
include h

theorem number_lt {host : String} (hhost : host ∈ hosts lines) : number input host < input.nameToIndex.length :=
  idxOf_lt_length_of_mem ((h.named host).mpr hhost)

theorem number_inj {host host' : String}
    (hhost : host ∈ hosts lines) (heq : number input host = number input host') : host = host' :=
  (idxOf_inj ((h.named host).mpr hhost)).mp heq

theorem joined_iff {i j : Host} {w : Nat} : input.graph.Joined i j w ↔ ∃ l ∈ lines, l.weight = w ∧
      ((number input l.firstHost = i ∧ number input l.secondHost = j) ∨
        (number input l.firstHost = j ∧ number input l.secondHost = i)) := by
  unfold Graph.Joined
  rw [h.edges]
  simp

theorem joined_pos (hpos : ∀ l ∈ lines, 0 < l.weight)
    (i j : Host) (w : Nat) (hjoined : input.graph.Joined i j w) : 0 < w := by
  obtain ⟨l, hl, rfl, -⟩ := h.joined_iff.mp hjoined
  exact hpos l hl

theorem mem_entry_iff_joined {i j : Host} :
    (∃ ips, (j, ips) ∈ input.ip.entry i) ↔ ∃ w, input.graph.Joined i j w := by
  constructor
  · rintro ⟨ips, hmem⟩
    obtain ⟨l, hl, ⟨rfl, heq⟩ | ⟨rfl, heq⟩⟩ := (h.entry i _).mp hmem
    · exact ⟨_, h.joined_iff.mpr ⟨l, hl, rfl, Or.inl ⟨rfl, (congrArg Prod.fst heq).symm⟩⟩⟩
    · exact ⟨_, h.joined_iff.mpr ⟨l, hl, rfl, Or.inr ⟨(congrArg Prod.fst heq).symm, rfl⟩⟩⟩
  · rintro ⟨w, hjoined⟩
    obtain ⟨l, hl, -, ⟨rfl, rfl⟩ | ⟨rfl, rfl⟩⟩ := h.joined_iff.mp hjoined
    · exact ⟨_, (h.entry _ _).mpr ⟨l, hl, Or.inl ⟨rfl, rfl⟩⟩⟩
    · exact ⟨_, (h.entry _ _).mpr ⟨l, hl, Or.inr ⟨rfl, rfl⟩⟩⟩

theorem mem_entry_swap {i j : Host} {a b : IPAddress}
    (hmem : (j, a, b) ∈ input.ip.entry i) : (i, b, a) ∈ input.ip.entry j := by
  obtain ⟨l, hl, ⟨rfl, heq⟩ | ⟨rfl, heq⟩⟩ := (h.entry i _).mp hmem
  · cases heq
    exact (h.entry _ _).mpr ⟨l, hl, Or.inr ⟨rfl, rfl⟩⟩
  · cases heq
    exact (h.entry _ _).mpr ⟨l, hl, Or.inl ⟨rfl, rfl⟩⟩

theorem host_of_entry {i : Host} {pos : Host × IPAddress × IPAddress} (hmem : pos ∈ input.ip.entry i) :
    ∃ host ∈ hosts lines, number input host = i ∧ Owns lines host pos.2.1 := by
  obtain ⟨l, hl, ⟨rfl, rfl⟩ | ⟨rfl, rfl⟩⟩ := (h.entry i _).mp hmem
  · exact ⟨l.firstHost, mem_hosts.mpr ⟨l, hl, Or.inl rfl⟩, rfl, l, hl, Or.inl ⟨rfl, rfl⟩⟩
  · exact ⟨l.secondHost, mem_hosts.mpr ⟨l, hl, Or.inr rfl⟩, rfl, l, hl, Or.inr ⟨rfl, rfl⟩⟩

end

theorem host_of_owns {host : String} {ip : IPAddress} (howns : Owns lines host ip) : host ∈ hosts lines := by
  obtain ⟨l, hl, ⟨rfl, -⟩ | ⟨rfl, -⟩⟩ := howns
  · exact mem_hosts.mpr ⟨l, hl, Or.inl rfl⟩
  · exact mem_hosts.mpr ⟨l, hl, Or.inr rfl⟩

section

variable (h : Reads numVertices lines input)
include h

theorem owns_iff {host : String} {ip : IPAddress} (hhost : host ∈ hosts lines) :
    Owns lines host ip ↔ ∃ pos ∈ input.ip.entry (number input host), pos.2.1 = ip := by
  constructor
  · rintro ⟨l, hl, ⟨rfl, rfl⟩ | ⟨rfl, rfl⟩⟩
    · exact ⟨_, (h.entry _ _).mpr ⟨l, hl, Or.inl ⟨rfl, rfl⟩⟩, rfl⟩
    · exact ⟨_, (h.entry _ _).mpr ⟨l, hl, Or.inr ⟨rfl, rfl⟩⟩, rfl⟩
  · rintro ⟨pos, hpos, rfl⟩
    obtain ⟨host', -, hnumber, howns⟩ := h.host_of_entry hpos
    rwa [h.number_inj hhost hnumber.symm]

theorem mem_neighborIPs_iff {host : String} {ip : IPAddress} (hhost : host ∈ hosts lines) :
    ip ∈ neighborIPs lines host ↔ ∃ pos ∈ input.ip.entry (number input host), pos.2.2 = ip := by
  unfold neighborIPs
  rw [mem_flatMap]
  constructor
  · rintro ⟨l, hl, hmem⟩
    rcases mem_append.mp hmem with hmem | hmem
    · split at hmem
      · rename_i heq
        refine ⟨_, (h.entry _ _).mpr ⟨l, hl, Or.inl ⟨by rw [heq], rfl⟩⟩, ?_⟩
        simpa using (mem_singleton.mp hmem).symm
      · cases hmem
    · split at hmem
      · rename_i heq
        refine ⟨_, (h.entry _ _).mpr ⟨l, hl, Or.inr ⟨by rw [heq], rfl⟩⟩, ?_⟩
        simpa using (mem_singleton.mp hmem).symm
      · cases hmem
  · rintro ⟨pos, hpos, rfl⟩
    obtain ⟨l, hl, ⟨hnumber, rfl⟩ | ⟨hnumber, rfl⟩⟩ := (h.entry _ _).mp hpos
    · exact ⟨l, hl, by simp [h.number_inj hhost hnumber]⟩
    · exact ⟨l, hl, by simp [h.number_inj hhost hnumber]⟩

theorem entry_unique (ht : Topology lines) {i j : Host}
    {pos pos' : Host × IPAddress × IPAddress} (hpos : pos ∈ input.ip.entry i)
    (hpos' : pos' ∈ input.ip.entry j) (heq : pos.2.1 = pos'.2.1) : i = j := by
  obtain ⟨host, -, rfl, howns⟩ := h.host_of_entry hpos
  obtain ⟨host', -, rfl, howns'⟩ := h.host_of_entry hpos'
  rw [ht.owner_unique host host' _ howns (heq ▸ howns')]

theorem linked_joined {host host' : String} (hlinked : Linked lines host host') :
    ∃ w, input.graph.Joined (number input host) (number input host') w := by
  obtain ⟨l, hl, ⟨rfl, rfl⟩ | ⟨rfl, rfl⟩⟩ := hlinked
  · exact ⟨_, h.joined_iff.mpr ⟨l, hl, rfl, Or.inl ⟨rfl, rfl⟩⟩⟩
  · exact ⟨_, h.joined_iff.mpr ⟨l, hl, rfl, Or.inr ⟨rfl, rfl⟩⟩⟩

theorem reaches_of_connected {host host' : String} (hconnected : Connected lines host host') :
    Reaches input.graph.Joined (number input host) (number input host') := by
  induction hconnected with
  | refl => exact Reaches.refl _
  | tail _ hlinked ih =>
    obtain ⟨w, hjoined⟩ := h.linked_joined hlinked
    exact ih.trans ⟨w, Walk.single hjoined⟩

theorem connected_of_walk {i j : Host} {c : Nat} (hwalk : Walk input.graph.Joined i j c) :
    ∀ host ∈ hosts lines, ∀ host' ∈ hosts lines, number input host = i → number input host' = j →
      Connected lines host host' := by
  induction hwalk with
  | nil v =>
    rintro host hhost host' - rfl heq
    rw [h.number_inj hhost heq.symm]
    exact Relation.ReflTransGen.refl
  | cons hjoined _ ih =>
    rintro host hhost host' hhost' rfl hend
    obtain ⟨l, hl, -, ⟨hi, hj⟩ | ⟨hj, hi⟩⟩ := h.joined_iff.mp hjoined
    · have hfirst := h.number_inj hhost hi.symm
      refine Relation.ReflTransGen.head ?_
        (ih l.secondHost (mem_hosts.mpr ⟨l, hl, Or.inr rfl⟩) host' hhost' hj hend)
      exact ⟨l, hl, Or.inl ⟨hfirst.symm, rfl⟩⟩
    · have hsecond := h.number_inj hhost hi.symm
      refine Relation.ReflTransGen.head ?_
        (ih l.firstHost (mem_hosts.mpr ⟨l, hl, Or.inl rfl⟩) host' hhost' hj hend)
      exact ⟨l, hl, Or.inr ⟨rfl, hsecond.symm⟩⟩

end

end Reads

/-! ## Routes -/

/-- What `route` leaves for a source. -/
structure Routed (graph : Graph) (s : Host) (routed : SingleSource) : Prop where
  vertexCount : routed.vertexCount = graph.vertexCount
  source : routed.source = s
  /-- The first hop to a host that is reached is a neighbour on a shortest path. -/
  reached : ∀ i < graph.vertexCount, i ≠ s → Reaches graph.Joined s i →
    ∃ w c, graph.Joined s (routed.getFirstHop i) w ∧ Walk graph.Joined (routed.getFirstHop i) i c ∧
      IsLeast {c | Walk graph.Joined s i c} (w + c)
  unreached : ∀ i < graph.vertexCount, ¬Reaches graph.Joined s i → routed.getFirstHop i = i

theorem mapM_range_some {f : Nat → Option Host} {n : Nat} (h : ∀ i < n, ∃ x, f i = some x) :
    ∃ l, (List.range n).mapM f = some l ∧ l.length = n ∧ ∀ i < n, f i = some (l.getD i 0) := by
  induction n with
  | zero => exact ⟨[], rfl, rfl, by simp⟩
  | succ n ih =>
    obtain ⟨l, hl, hlength, hget⟩ := ih fun i hi => h i (by omega)
    obtain ⟨x, hx⟩ := h n (by omega)
    refine ⟨l ++ [x], ?_, by simp [hlength], ?_⟩
    · rw [range_succ, mapM_append, hl]
      simp [hx]
    · intro i hi
      rcases Nat.lt_succ_iff_lt_or_eq.mp hi with hi | rfl
      · rw [hget i hi]
        simp [List.getElem?_append_left (hlength ▸ hi)]
      · rw [hx]
        simp [← hlength]

variable {dijkstra_shortest_paths : Graph → Host → Paths}

/-- From correct shortest paths the first hops are read off. -/
theorem route_spec {graph : Graph} {s : Host} (hpos : ∀ i j w, graph.Joined i j w → 0 < w)
    (htree : IsTree graph.Joined s (dijkstra_shortest_paths graph s).1 (dijkstra_shortest_paths graph s).2) :
    ∃ routed, route dijkstra_shortest_paths graph s = .ok routed ∧ Routed graph s routed := by
  obtain ⟨pred, dist, hpaths⟩ : ∃ pred dist, dijkstra_shortest_paths graph s = (pred, dist) := ⟨_, _, rfl⟩
  rw [hpaths] at htree
  have hreached : ∀ i, i ≠ s → Reaches graph.Joined s i →
      ∃ f w c, firstHopOf pred dist s i = some f ∧ graph.Joined s f w ∧
        Walk graph.Joined f i c ∧ w + c = dist i := by
    intro i hne hreaches
    obtain ⟨f, w, c, hf, hjoined, hwalk, hsum⟩ := htree.firstHop hpos hreaches hne le_rfl
    refine ⟨f, w, c, ?_, hjoined, hwalk, hsum⟩
    rw [firstHopOf, if_pos (htree.pred_ne hpos hreaches hne).symm]
    exact hf
  have hself : ∀ i, pred i = i → firstHopOf pred dist s i = some i := by
    intro i hi
    rw [firstHopOf, if_neg (by simp [hi])]
  have hsome : ∀ i < graph.vertexCount, ∃ x, firstHopOf pred dist s i = some x := by
    intro i _
    by_cases hreaches : Reaches graph.Joined s i
    · by_cases hne : i = s
      · exact ⟨i, hself i (by rw [hne]; exact htree.source)⟩
      · obtain ⟨f, -, -, hf, -⟩ := hreached i hne hreaches
        exact ⟨f, hf⟩
    · exact ⟨i, hself i (htree.unreached i hreaches)⟩
  obtain ⟨first_hop, hmap, -, hget⟩ := mapM_range_some hsome
  refine ⟨⟨graph.vertexCount, s, dist, first_hop⟩, by simp [route, hpaths, hmap], rfl, rfl, ?_, ?_⟩
  · intro i hi hne hreaches
    obtain ⟨f, w, c, hf, hjoined, hwalk, hsum⟩ := hreached i hne hreaches
    have heq : first_hop.getD i 0 = f := Option.some.inj ((hget i hi).symm.trans hf)
    refine ⟨w, c, ?_, ?_, ?_⟩
    · show graph.Joined s (first_hop.getD i 0) w
      rwa [heq]
    · show Walk graph.Joined (first_hop.getD i 0) i c
      rwa [heq]
    · rw [hsum]
      exact htree.least i hreaches
  · intro i hi hnot
    exact Option.some.inj ((hget i hi).symm.trans (hself i (htree.unreached i hnot)))

end Dijkstra

end Emulab
