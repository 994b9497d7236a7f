import Emulab.Dijkstra.Check

/-! # What the input is translated to

  Every label gets a number, and every line an edge and an entry at both of
  its hosts. Walks of the graph are the ways of the topology.
-/

namespace Emulab

open List

namespace Dijkstra

/-! ## Entries -/

@[simp] theorem HostEntry.mem_insert {entry : HostEntry} {host : Host}
    {ips : IPAddress × IPAddress} {pos : Host × IPAddress × IPAddress} :
    pos ∈ entry.insert host ips ↔ pos = (host, ips) ∨ pos ∈ entry := by
  simp [HostEntry.insert, mem_orderedInsert]

theorem HostEntry.mem_of_find {entry : HostEntry} {host : Host} {ips : IPAddress × IPAddress}
    (h : entry.find host = some ips) : (host, ips) ∈ entry := by
  obtain ⟨pos, hpos, rfl⟩ := Option.map_eq_some_iff.mp h
  have hkey := List.find?_some hpos
  have hmem := mem_of_find?_eq_some hpos
  simp only [decide_eq_true_eq] at hkey
  rwa [← hkey]

theorem HostEntry.find_eq_none {entry : HostEntry} {host : Host} :
    entry.find host = none ↔ ∀ pos ∈ entry, pos.1 ≠ host := by
  simp [HostEntry.find]

theorem mem_entry_modify {ip : HostHostToIpMap} {i j host : Host} {ips : IPAddress × IPAddress}
    {pos : Host × IPAddress × IPAddress} (hi : i < ip.length) :
    pos ∈ HostHostToIpMap.entry (ip.modify i (·.insert host ips)) j ↔
      (j = i ∧ pos = (host, ips)) ∨ pos ∈ ip.entry j := by
  unfold HostHostToIpMap.entry
  rw [getD_eq_getElem?_getD, getD_eq_getElem?_getD, List.getElem?_modify]
  by_cases hij : i = j
  · subst hij
    rw [List.getElem?_eq_getElem hi]
    simp
  · cases hget : ip[j]? with
    | none => simp [hij, Ne.symm hij]
    | some entry => simp [hij, Ne.symm hij]

/-! ## Edges -/

/-- There is an edge of that weight, in either direction. -/
def Graph.Joined (graph : Graph) (i j : Host) (w : Nat) : Prop :=
  ∃ e ∈ graph.edges, e.cost = w ∧ ((e.edgeSource = i ∧ e.edgeDest = j) ∨ (e.edgeSource = j ∧ e.edgeDest = i))

/-! ## Reading lines -/

structure Reads (numVertices : Nat) (lines : List Line) (input : Input) : Prop where
  nodup : input.nameToIndex.Nodup
  named : ∀ name, name ∈ input.nameToIndex ↔ name ∈ hosts lines
  vertexCount : input.graph.vertexCount = numVertices
  length : input.ip.length = numVertices
  count : input.nameToIndex.length ≤ numVertices
  edges : input.graph.edges = lines.map fun l =>
    ⟨input.nameToIndex.idxOf l.firstHost, input.nameToIndex.idxOf l.secondHost, l.weight⟩
  entry : ∀ i pos, pos ∈ input.ip.entry i ↔ ∃ l ∈ lines, (i = input.nameToIndex.idxOf l.firstHost ∧
      pos = (input.nameToIndex.idxOf l.secondHost, l.firstIp, l.secondIp)) ∨
    (i = input.nameToIndex.idxOf l.secondHost ∧ pos = (input.nameToIndex.idxOf l.firstHost, l.secondIp, l.firstIp))

@[simp] theorem mem_hosts {lines : List Line} {host : String} :
    host ∈ hosts lines ↔ ∃ l ∈ lines, host = l.firstHost ∨ host = l.secondHost := by
  simp [hosts]

theorem reads_new (numVertices : Nat) : Reads numVertices [] (Input.new numVertices) where
  nodup := nodup_nil
  named := by simp [Input.new]
  vertexCount := rfl
  length := by simp [Input.new]
  count := by simp [Input.new]
  edges := rfl
  entry := by
    intro i pos
    simp only [Input.new, HostHostToIpMap.entry, getD_eq_getElem?_getD, List.getElem?_replicate]
    split <;> simp

/-- What `index` leaves: the numbers of before stand, and the label has the number returned. -/
structure Indexed (input input' : Input) (host : String) (pos : Host) : Prop where
  names : input'.nameToIndex = input.nameToIndex ∨
    (host ∉ input.nameToIndex ∧ input'.nameToIndex = input.nameToIndex ++ [host])
  graph : input'.graph = input.graph
  ip : input'.ip = input.ip
  mem : host ∈ input'.nameToIndex
  pos : pos = input'.nameToIndex.idxOf host

theorem Indexed.mem_names {input input' : Input} {host name : String} {pos : Host}
    (h : Indexed input input' host pos) : name ∈ input'.nameToIndex ↔ name ∈ input.nameToIndex ∨ name = host := by
  rcases h.names with heq | ⟨-, heq⟩
  · have := h.mem
    rw [heq] at this ⊢
    constructor
    · exact Or.inl
    · rintro (hname | rfl)
      · exact hname
      · exact this
  · rw [heq]
    simp

theorem Indexed.idxOf {input input' : Input} {host name : String} {pos : Host}
    (h : Indexed input input' host pos) (hname : name ∈ input.nameToIndex) :
    input'.nameToIndex.idxOf name = input.nameToIndex.idxOf name := by
  rcases h.names with heq | ⟨-, heq⟩
  · rw [heq]
  · rw [heq, idxOf_append_of_mem hname]

theorem Indexed.nodup {input input' : Input} {host : String} {pos : Host}
    (h : Indexed input input' host pos) (hnodup : input.nameToIndex.Nodup) : input'.nameToIndex.Nodup := by
  rcases h.names with heq | ⟨hnew, heq⟩
  · rwa [heq]
  · rw [heq]
    exact concat_eq_append ▸ hnodup.concat hnew

theorem eq_idxOf_of_idxOf? {names : List String} {host : String} {pos : Nat}
    (h : names.idxOf? host = some pos) : pos = names.idxOf host := by
  induction names generalizing pos with
  | nil => cases h
  | cons name rest ih =>
    rw [List.idxOf?_cons] at h
    rw [idxOf_cons]
    cases hname : name == host with
    | true => simpa [hname] using h.symm
    | false =>
      simp only [hname, Bool.false_eq_true, if_false, Option.map_eq_some_iff] at h
      obtain ⟨k, hk, rfl⟩ := h
      simp [ih hk]

/-- A label is numbered while there is room. -/
theorem index_spec {input : Input} {host : String}
    (hroom : host ∉ input.nameToIndex → input.nameToIndex.length < input.ip.length) :
    ∃ input' pos, input.index host = .ok (input', pos) ∧ Indexed input input' host pos := by
  unfold Input.index
  cases hfind : input.nameToIndex.idxOf? host with
  | some pos =>
    have hmem : host ∈ input.nameToIndex := by
      rw [← isSome_idxOf?, hfind]
      rfl
    exact ⟨input, pos, rfl, Or.inl rfl, rfl, rfl, hmem, eq_idxOf_of_idxOf? hfind⟩
  | none =>
    have hnot : host ∉ input.nameToIndex := List.idxOf?_eq_none_iff.mp hfind
    have := hroom hnot
    simp only [gt_iff_lt]
    rw [if_neg (by omega)]
    refine ⟨_, _, rfl, Or.inr ⟨hnot, rfl⟩, rfl, rfl, by simp, ?_⟩
    simp [idxOf_append_of_notMem hnot]

theorem inputEdge_spec {numVertices : Nat} {lines : List Line} {line : Line} {input : Input}
    (h : Reads numVertices lines input) (hcount : (hosts (lines ++ [line])).length ≤ numVertices) :
    ∃ input', inputEdge input line = .ok input' ∧ Reads numVertices (lines ++ [line]) input' := by
  -- numbering the two labels
  have hnamed : ∀ name ∈ input.nameToIndex, name ∈ hosts (lines ++ [line]) := by
    intro name hname
    obtain ⟨l, hl, hends⟩ := mem_hosts.mp ((h.named name).mp hname)
    exact mem_hosts.mpr ⟨l, by simp [hl], hends⟩
  have hroom : ∀ {names : List String} {host : String}, names.Nodup → host ∉ names →
      (∀ name ∈ names, name ∈ hosts (lines ++ [line])) → host ∈ hosts (lines ++ [line]) →
      names.length < numVertices := by
    intro names host hnodup hnot hsub hhost
    have hle := (subperm_of_subset (nodup_cons.mpr ⟨hnot, hnodup⟩) (cons_subset.mpr ⟨hhost, hsub⟩)).length_le
    rw [length_cons] at hle
    omega
  have hfirst : line.firstHost ∈ hosts (lines ++ [line]) := mem_hosts.mpr ⟨line, by simp, Or.inl rfl⟩
  have hsecond : line.secondHost ∈ hosts (lines ++ [line]) := mem_hosts.mpr ⟨line, by simp, Or.inr rfl⟩
  obtain ⟨input₁, first, hindex₁, h₁⟩ := @index_spec input line.firstHost
    (fun hnot => h.length ▸ hroom h.nodup hnot hnamed hfirst)
  have hnamed₁ : ∀ name ∈ input₁.nameToIndex, name ∈ hosts (lines ++ [line]) := by
    intro name hname
    rcases h₁.mem_names.mp hname with hname | rfl
    · exact hnamed name hname
    · exact hfirst
  obtain ⟨input₂, second, hindex₂, h₂⟩ := @index_spec input₁ line.secondHost
    (fun hnot => (h₁.ip ▸ h.length) ▸ hroom (h₁.nodup h.nodup) hnot hnamed₁ hsecond)
  refine ⟨input₂.link first second line, ?_, ?_⟩
  · unfold inputEdge
    rw [hindex₁]
    show (input₁.index line.secondHost >>= _) = _
    rw [hindex₂]
    rfl
  -- the numbers of before stand
  have hold : ∀ {name}, name ∈ hosts lines → input₂.nameToIndex.idxOf name = input.nameToIndex.idxOf name := by
    intro name hname
    have hmem := (h.named name).mpr hname
    rw [h₂.idxOf (h₁.mem_names.mpr (Or.inl hmem)), h₁.idxOf hmem]
  have hlines : ∀ l ∈ lines, input₂.nameToIndex.idxOf l.firstHost = input.nameToIndex.idxOf l.firstHost ∧
        input₂.nameToIndex.idxOf l.secondHost = input.nameToIndex.idxOf l.secondHost :=
    fun l hl => ⟨hold (mem_hosts.mpr ⟨l, hl, Or.inl rfl⟩), hold (mem_hosts.mpr ⟨l, hl, Or.inr rfl⟩)⟩
  have hfirstPos : first = input₂.nameToIndex.idxOf line.firstHost := by
    rw [h₂.idxOf h₁.mem]
    exact h₁.pos
  have hsecondPos : second = input₂.nameToIndex.idxOf line.secondHost := h₂.pos
  have hnodup : input₂.nameToIndex.Nodup := h₂.nodup (h₁.nodup h.nodup)
  have hnamed₂ : ∀ name, name ∈ input₂.nameToIndex ↔ name ∈ hosts (lines ++ [line]) := by
    intro name
    rw [h₂.mem_names, h₁.mem_names, h.named]
    simp only [mem_hosts, mem_append, mem_singleton, or_and_right, exists_or, exists_eq_left]
    exact or_assoc
  have hlen : input₂.ip.length = numVertices := by rw [h₂.ip, h₁.ip, h.length]
  have hcount₂ : input₂.nameToIndex.length ≤ numVertices :=
    (subperm_of_subset hnodup fun name hname => (hnamed₂ name).mp hname).length_le.trans hcount
  have hpos : ∀ {name}, name ∈ input₂.nameToIndex → input₂.nameToIndex.idxOf name < numVertices :=
    fun hname => (idxOf_lt_length_of_mem hname).trans_le hcount₂
  have hfirstLt : first < numVertices := hfirstPos ▸ hpos (h₂.mem_names.mpr (Or.inl h₁.mem))
  have hsecondLt : second < numVertices := hsecondPos ▸ hpos h₂.mem
  exact {
    nodup := hnodup
    named := hnamed₂
    vertexCount := by
      show input₂.graph.vertexCount = numVertices
      rw [h₂.graph, h₁.graph, h.vertexCount]
    length := by simp [Input.link, hlen]
    count := hcount₂
    edges := by
      show input₂.graph.edges ++ [⟨first, second, line.weight⟩] = _
      rw [h₂.graph, h₁.graph, h.edges, map_append, hfirstPos, hsecondPos]
      congr 1
      apply map_congr_left
      intro l hl
      obtain ⟨hf, hs⟩ := hlines l hl
      rw [← hf, ← hs]
      rfl
    entry := by
      intro i pos
      show pos ∈ HostHostToIpMap.entry ((input₂.ip.modify first _).modify second _) i ↔ _
      rw [mem_entry_modify (by simpa [hlen] using hsecondLt),
        mem_entry_modify (by simpa [hlen] using hfirstLt), h₂.ip, h₁.ip, h.entry,
        hfirstPos, hsecondPos]
      simp only [Input.link, mem_append, mem_singleton, or_and_right, exists_or, exists_eq_left]
      constructor
      · rintro (hnew | hnew | ⟨l, hl, hat⟩)
        · exact Or.inr (Or.inr hnew)
        · exact Or.inr (Or.inl hnew)
        · refine Or.inl ⟨l, hl, ?_⟩
          rw [(hlines l hl).1, (hlines l hl).2]
          exact hat
      · rintro (⟨l, hl, hat⟩ | hnew | hnew)
        · refine Or.inr (Or.inr ⟨l, hl, ?_⟩)
          rw [(hlines l hl).1, (hlines l hl).2] at hat
          exact hat
        · exact Or.inr (Or.inl hnew)
        · exact Or.inl hnew }

theorem inputEdges_spec {numVertices : Nat} {lines : List Line} (hcount : (hosts lines).length ≤ numVertices) :
    ∃ input, inputEdges numVertices lines = .ok input ∧ Reads numVertices lines input := by
  unfold inputEdges
  induction lines using List.reverseRecOn with
  | nil => exact ⟨_, rfl, reads_new numVertices⟩
  | append_singleton lines line ih =>
    have hle : (hosts lines).length ≤ (hosts (lines ++ [line])).length := by
      refine (subperm_of_subset (nodup_dedup _) ?_).length_le
      intro name hname
      obtain ⟨l, hl, hends⟩ := mem_hosts.mp hname
      exact mem_hosts.mpr ⟨l, by simp [hl], hends⟩
    obtain ⟨input, hread, h⟩ := ih (hle.trans hcount)
    obtain ⟨input', hline, h'⟩ := inputEdge_spec h hcount
    refine ⟨input', ?_, h'⟩
    rw [foldlM_append, hread]
    show (List.foldlM inputEdge input [line]) = _
    simp [hline]

end Dijkstra

end Emulab
