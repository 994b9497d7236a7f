import Emulab.Dijkstra.Compressor

/-! # Following routes

  The checker reads the routes of every host into an ordered set, longest
  masks first, and follows them from a host to an address. An address of a
  directly attached link is handed to its neighbour. A host that was visited
  before is an error, and so is a next hop that is not a neighbour.
-/

namespace Emulab

open List

namespace Dijkstra

/-! ## The topology -/

/-- The host has an interface with that address. -/
def Owns (lines : List Line) (host : String) (ip : IPAddress) : Prop :=
  ∃ l ∈ lines, (l.firstHost = host ∧ l.firstIp = ip) ∨ (l.secondHost = host ∧ l.secondIp = ip)

/-- There is a link between the two hosts. -/
def Linked (lines : List Line) (host host' : String) : Prop :=
  ∃ l ∈ lines, (l.firstHost = host ∧ l.secondHost = host') ∨ (l.firstHost = host' ∧ l.secondHost = host)

/-- The two hosts are in one component. -/
def Connected (lines : List Line) : String → String → Prop := Relation.ReflTransGen (Linked lines)

def hosts (lines : List Line) : List String :=
  (lines.flatMap fun l => [l.firstHost, l.secondHost]).dedup

/-- The weights are positive, and an address belongs to one host only. The host may have it
    in several lines: a LAN is given by the links between all pairs of its hosts. -/
structure Topology (lines : List Line) : Prop where
  weight_pos : ∀ l ∈ lines, 0 < l.weight
  owner_unique : ∀ host host' ip, Owns lines host ip → Owns lines host' ip → host = host'

/-- The addresses at the other ends of the links of a host. -/
def neighborIPs (lines : List Line) (host : String) : List IPAddress :=
  lines.flatMap fun l =>
    (if l.firstHost = host then [l.secondIp] else []) ++ (if l.secondHost = host then [l.firstIp] else [])

/-- The host to which an address belongs. -/
def interfaces (lines : List Line) (ip : IPAddress) : Option String :=
  lines.findSome? fun l =>
    if l.firstIp = ip then some l.firstHost
    else if l.secondIp = ip then some l.secondHost
    else none

/-! ## Routing tables -/

def Route.Matches (route : Route) (ip : IPAddress) : Prop :=
  route.dest &&& route.destMask = ip &&& route.destMask

instance (route : Route) (ip : IPAddress) : Decidable (route.Matches ip) :=
  inferInstanceAs (Decidable (_ = _))

/-- The order of the set: long masks first. -/
def Route.Before (left right : Route) : Prop :=
  left.destMask > right.destMask ∨ (left.destMask = right.destMask ∧ left.dest < right.dest)

instance (left right : Route) : Decidable (left.Before right) :=
  inferInstanceAs (Decidable (_ ∨ _))

/-- Inserting into the set. -/
def addRoute (newRoute : Route) : List Route → List Route
  | [] => [newRoute]
  | route :: rest =>
    if newRoute.Before route then newRoute :: route :: rest
    else if route.Before newRoute then route :: addRoute newRoute rest
    else route :: rest

def setupRoutes (routes : List Route) : List Route := routes.foldl (fun set r => addRoute r set) []

def routeTo (routes : List Route) (destination : IPAddress) : Option IPAddress :=
  ((setupRoutes routes).find? (·.Matches destination)).map (·.nextHop)

/-- The routes that were printed under the label of a host. -/
def routesOf (sections : List Section) (host : String) : List Route :=
  ((sections.find? (·.header = some host)).map (·.routes)).getD []

/-! ## Following -/

inductive FollowError where
  | noRoute (destination : IPAddress)
  | invalidIPOnPath (current : String) (destination nextIP : IPAddress)
  | impossibleRoute (current : String) (destination nextIP : IPAddress)
  | circularRoute (next : String) (destination : IPAddress)
  | diverges
  deriving DecidableEq, Repr

/-- Addresses are compared as they are. -/
local instance lawfulIPAddress : LawfulBEq IPAddress := inferInstance

def checkHop (lines : List Line) (destination : IPAddress) (current : String)
    (nextIP : IPAddress) (visited : List String) : Except FollowError String :=
  match interfaces lines nextIP with
  | none => .error (.invalidIPOnPath current destination nextIP)
  | some next =>
    if nextIP ∉ neighborIPs lines current then .error (.impossibleRoute current destination nextIP)
    else if next ∈ visited then .error (.circularRoute next destination)
    else .ok next

/-- The address to go to next. -/
def nextIP (lines : List Line) (sections : List Section) (destination : IPAddress)
    (current : String) : Option IPAddress :=
  if destination ∈ neighborIPs lines current then some destination
  else routeTo (routesOf sections current) destination

/-- The loop, by a bound on the hosts that are not visited. The last host is the first in the
    list of those visited. -/
def followFrom (lines : List Line) (sections : List Section) (destination : IPAddress)
    (destNode : String) : Nat → List String → String → Except FollowError (List String)
  | fuel, visited, current =>
    if current = destNode then .ok visited.reverse
    else
      match fuel with
      | 0 => .error .diverges
      | fuel + 1 =>
        match nextIP lines sections destination current with
        | none => .error (.noRoute destination)
        | some nextIP => do
          let next ← checkHop lines destination current nextIP visited
          followFrom lines sections destination destNode fuel (next :: visited) next

/-- The hosts on the way from the source to the host that has the address. -/
def followRoute (lines : List Line) (sections : List Section) (source : String)
    (destination : IPAddress) (destNode : String) : Except FollowError (List String) :=
  followFrom lines sections destination destNode sections.length [source] source

/-- From every host every address in its component is reached, by a way that visits no host twice. -/
def Delivers (lines : List Line) (sections : List Section) : Prop :=
  ∀ source ∈ hosts lines, ∀ dest ip, Owns lines dest ip → Connected lines source dest →
    ∃ path, followRoute lines sections source ip dest = .ok path ∧ path.Nodup ∧
      path.head? = some source ∧ path.getLast? = some dest

/-! ## The longest match -/

theorem mem_addRoute {r x : Route} {set : List Route} (h : x ∈ addRoute r set) : x = r ∨ x ∈ set := by
  induction set with
  | nil => exact Or.inl (by simpa [addRoute] using h)
  | cons y rest ih =>
    unfold addRoute at h
    split_ifs at h
    · simpa using h
    · rcases mem_cons.mp h with rfl | h
      · exact Or.inr (by simp)
      · exact (ih h).imp id (mem_cons_of_mem y)
    · exact Or.inr h

theorem mem_of_addRoute {r x : Route} {set : List Route} (h : x = r ∨ x ∈ set) :
    ∃ y ∈ addRoute r set, y.destMask = x.destMask ∧ y.dest = x.dest := by
  induction set with
  | nil =>
    refine ⟨r, by simp [addRoute], ?_⟩
    simp at h
    simp [h]
  | cons y rest ih =>
    unfold addRoute
    split_ifs with hbefore hafter
    · exact ⟨x, by simpa using h, rfl, rfl⟩
    · rcases h with rfl | h
      · obtain ⟨z, hz, heq⟩ := ih (Or.inl rfl)
        exact ⟨z, by simp [hz], heq⟩
      · rcases mem_cons.mp h with rfl | h
        · exact ⟨x, by simp, rfl, rfl⟩
        · obtain ⟨z, hz, heq⟩ := ih (Or.inr h)
          exact ⟨z, by simp [hz], heq⟩
    · rcases h with rfl | h
      · -- neither is before the other
        refine ⟨y, by simp, ?_⟩
        unfold Route.Before at hbefore hafter
        rw [not_or, not_and] at hbefore hafter
        have hmask : x.destMask = y.destMask :=
          BitVec.le_antisymm (BitVec.not_lt.mp hbefore.1) (BitVec.not_lt.mp hafter.1)
        exact ⟨hmask.symm, BitVec.le_antisymm (BitVec.not_lt.mp (hbefore.2 hmask))
          (BitVec.not_lt.mp (hafter.2 hmask.symm))⟩
      · exact ⟨x, h, rfl, rfl⟩

theorem sorted_addRoute {r : Route} {set : List Route} (h : set.Pairwise fun a b => b.destMask ≤ a.destMask) :
    (addRoute r set).Pairwise fun a b => b.destMask ≤ a.destMask := by
  induction set with
  | nil => simp [addRoute]
  | cons y rest ih =>
    obtain ⟨hy, hrest⟩ := pairwise_cons.mp h
    unfold addRoute
    split_ifs with hbefore hafter
    · have hle : y.destMask ≤ r.destMask := by
        rcases hbefore with hlt | ⟨heq, -⟩
        · exact BitVec.le_of_lt hlt
        · exact heq ▸ BitVec.le_refl _
      refine pairwise_cons.mpr ⟨?_, h⟩
      intro z hz
      rcases mem_cons.mp hz with rfl | hz
      · exact hle
      · exact BitVec.le_trans (hy z hz) hle
    · refine pairwise_cons.mpr ⟨?_, ih hrest⟩
      intro z hz
      rcases mem_addRoute hz with rfl | hz
      · rcases hafter with hlt | ⟨heq, -⟩
        · exact BitVec.le_of_lt hlt
        · exact heq ▸ BitVec.le_refl _
      · exact hy z hz
    · exact h

theorem setupRoutes_spec (routes : List Route) : (∀ x ∈ setupRoutes routes, x ∈ routes) ∧
      (∀ x ∈ routes, ∃ y ∈ setupRoutes routes, y.destMask = x.destMask ∧ y.dest = x.dest) ∧
      (setupRoutes routes).Pairwise fun a b => b.destMask ≤ a.destMask := by
  induction routes using List.reverseRecOn with
  | nil => simp [setupRoutes]
  | append_singleton routes r ih =>
    obtain ⟨hmem, hkept, hsorted⟩ := ih
    have heq : setupRoutes (routes ++ [r]) = addRoute r (setupRoutes routes) := by
      simp [setupRoutes]
    rw [heq]
    refine ⟨?_, ?_, sorted_addRoute hsorted⟩
    · intro x hx
      rcases mem_addRoute hx with rfl | hx
      · simp
      · simp [hmem x hx]
    · intro x hx
      rcases mem_append.mp hx with hx | hx
      · obtain ⟨y, hy, heqy⟩ := hkept x hx
        obtain ⟨z, hz, heqz⟩ := mem_of_addRoute (r := r) (Or.inr hy)
        exact ⟨z, hz, heqz.1.trans heqy.1, heqz.2.trans heqy.2⟩
      · exact mem_of_addRoute (Or.inl (by simpa using hx))

theorem routeTo_spec {routes : List Route} {ip : IPAddress} (hsome : ∃ r ∈ routes, r.Matches ip) :
    ∃ r ∈ routes, r.Matches ip ∧ (∀ r' ∈ routes, r'.Matches ip → r'.destMask ≤ r.destMask) ∧
      routeTo routes ip = some r.nextHop := by
  obtain ⟨hmem, hkept, hsorted⟩ := setupRoutes_spec routes
  have hequal : ∀ x ∈ routes, x.Matches ip → ∃ y ∈ setupRoutes routes, y.Matches ip ∧ y.destMask = x.destMask := by
    intro x hx hmatch
    obtain ⟨y, hy, hmask, hdest⟩ := hkept x hx
    exact ⟨y, hy, by rw [Route.Matches, hmask, hdest]; exact hmatch, hmask⟩
  obtain ⟨x, hx, hmatch⟩ := hsome
  obtain ⟨y, hy, hymatch, -⟩ := hequal x hx hmatch
  obtain ⟨r, hr⟩ : ∃ r, (setupRoutes routes).find? (·.Matches ip) = some r := by
    apply Option.isSome_iff_exists.mp
    rw [List.find?_isSome]
    exact ⟨y, hy, by simpa using hymatch⟩
  obtain ⟨hrmatch, before, after, hsplit, hbefore⟩ := List.find?_eq_some_iff_append.mp hr
  have hrmem : r ∈ setupRoutes routes := by rw [hsplit]; simp
  refine ⟨r, hmem r hrmem, by simpa using hrmatch, ?_, by rw [routeTo, hr]; rfl⟩
  intro r' hr' hmatch'
  obtain ⟨z, hz, hzmatch, hmask⟩ := hequal r' hr' hmatch'
  rw [← hmask]
  rw [hsplit] at hz hsorted
  rcases mem_append.mp hz with hz | hz
  · have := hbefore z hz
    simp [hzmatch] at this
  · rcases mem_cons.mp hz with rfl | hz
    · exact BitVec.le_refl _
    · exact (pairwise_cons.mp (pairwise_append.mp hsorted).2.1).1 z hz

end Dijkstra

end Emulab
