import Mathlib.Order.Bounds.Basic
import Emulab.Lib.PrefixCover
import Emulab.Dijkstra.IpTrees

/-! # The fewest routes

  The optimal compressor walks through the sets of two children at once. What comes of it
  is what they have in common, or all of both, so that a joined tree has the best hops at
  every node. Then no table of routes to subnets sends the addresses of the tree to their
  first hops with fewer routes.
-/

namespace Emulab

open List

namespace Dijkstra

open PrefixTree

/-! ## Section 1: Routes to prefixes -/

/-- A route to all addresses that begin with a number of `size` bits. -/
structure PrefixRoute where
  size : Nat
  subnet : IPAddress
  hop : Host
  deriving DecidableEq

namespace PrefixRoute

def Matches (p : PrefixRoute) (a : IPAddress) : Prop := a >>> (IP_SIZE - p.size) = p.subnet

/-- The prefix begins with the number of a subnet that leaves `n` bits. -/
structure In (n : Nat) (number : IPAddress) (p : PrefixRoute) : Prop where
  longer : IP_SIZE - n ≤ p.size
  size_le : p.size ≤ IP_SIZE
  within : p.subnet >>> (p.size - (IP_SIZE - n)) = number

structure Leads (S : Finset PrefixRoute) (a : IPAddress) (hop : Host) : Prop where
  matched : ∃ p ∈ S, p.Matches a
  longest : ∀ p ∈ S, p.Matches a → (∀ p' ∈ S, p'.Matches a → p'.size ≤ p.size) → p.hop = hop

/-- The path of a prefix below a subnet that leaves `n` bits. -/
def path (n : Nat) (p : PrefixRoute) : List Bool := bits p.subnet (p.size - (IP_SIZE - n))

/-- The route at the end of a path below a subnet. -/
def ofPath (n : Nat) (number : IPAddress) (e : List Bool × Host) : PrefixRoute :=
  ⟨IP_SIZE - (n - e.1.length), subnetAt number e.1, e.2⟩

section

variable {n : Nat} {number a : IPAddress} {p : PrefixRoute}

theorem In.length_path (hn : n ≤ 32) (hp : p.In n number) : p.size + n = IP_SIZE + (p.path n).length := by
  have hlonger := hp.longer
  rw [path, length_bits]
  unfold IP_SIZE at hlonger ⊢
  omega

theorem In.length_path_le (hn : n ≤ 32) (hp : p.In n number) : (p.path n).length ≤ n := by
  have hlength := hp.length_path hn
  have hsize := hp.size_le
  omega

theorem In.matches_iff (hn : n ≤ 32) (hnumber : number.toNat < 2 ^ (32 - n)) (hp : p.In n number) :
    p.Matches a ↔ a >>> n = number ∧ p.path n <+: bits a n := by
  have hlength := hp.length_path hn
  have hle := hp.length_path_le hn
  have hsubnet : subnetAt number (p.path n) = p.subnet := by
    have hm : p.size - (IP_SIZE - n) ≤ 32 := by
      have := hp.size_le
      unfold IP_SIZE at *
      omega
    have hlt : number.toNat < 2 ^ (32 - (p.size - (IP_SIZE - n))) := by
      refine hnumber.trans_le (Nat.pow_le_pow_right (by omega) ?_)
      have := hp.size_le
      unfold IP_SIZE at *
      omega
    have hlength : (p.path n).length ≤ p.size - (IP_SIZE - n) := by simp [path]
    have hself := (ushiftRight_eq_subnetAt hm hlt hlength).mpr ⟨hp.within, prefix_refl _⟩
    rw [path, length_bits, Nat.sub_self] at hself
    simpa [path] using hself.symm
  rw [Matches, ← hsubnet, show IP_SIZE - p.size = n - (p.path n).length by omega,
    ushiftRight_eq_subnetAt hn hnumber hle]

theorem in_ofPath {e : List Bool × Host} (hn : n ≤ 32) (hnumber : number.toNat < 2 ^ (32 - n))
    (hlength : e.1.length ≤ n) : (ofPath n number e).In n number where
  longer := by
    unfold ofPath IP_SIZE
    dsimp only
    omega
  size_le := by simp [ofPath]
  within := by
    -- the first address at the end of the path is one of the subnet
    have hlt := subnetAt_lt hn hnumber hlength
    have hfirst : (subnetAt number e.1 <<< (n - e.1.length)) >>> (n - e.1.length) =
        subnetAt number e.1 := (and_maskOf_eq_iff (by omega) hlt).mp rfl
    have hin := ((ushiftRight_eq_subnetAt hn hnumber hlength).mp hfirst).1
    have hsize : IP_SIZE - (n - e.1.length) - (IP_SIZE - n) = e.1.length := by
      unfold IP_SIZE
      omega
    show subnetAt number e.1 >>> (IP_SIZE - (n - e.1.length) - (IP_SIZE - n)) = number
    rw [hsize, ← hfirst, ← BitVec.shiftRight_add, Nat.sub_add_cancel hlength]
    exact hin

theorem ofPath_matches_iff {e : List Bool × Host} (hn : n ≤ 32)
    (hnumber : number.toNat < 2 ^ (32 - n)) (hlength : e.1.length ≤ n) :
    (ofPath n number e).Matches a ↔ a >>> n = number ∧ e.1 <+: bits a n := by
  have hsize : IP_SIZE - (ofPath n number e).size = n - e.1.length := by
    unfold ofPath IP_SIZE
    dsimp only
    omega
  rw [Matches, hsize]
  exact ushiftRight_eq_subnetAt hn hnumber hlength

end

end PrefixRoute

namespace OptimalIpTree

/-! ## Section 2: The walk through two sets -/

/-- A set as `std::set` keeps it. -/
abbrev Sorted (hops : List Host) : Prop := hops.Pairwise (· < ·)

/-- A walk comes by every value of two sets, in order, and marks what is in both. -/
structure Walk (left right : List Host) (walk : List (Host × SET)) : Prop where
  sorted : Sorted (walk.map Prod.fst)
  mem : ∀ x, x ∈ walk.map Prod.fst ↔ x ∈ left ∨ x ∈ right
  both : ∀ x, (x, .bothSets) ∈ walk ↔ x ∈ left ∧ x ∈ right

theorem Walk.cons {left right left' right' : List Host} {walk : List (Host × SET)} {value : Host}
    {mark : SET} (hwalk : Walk left' right' walk) (hlt : ∀ x, x ∈ left' ∨ x ∈ right' → value < x)
    (hleft : ∀ x, x ∈ left ↔ (x = value ∧ mark ≠ .secondSet) ∨ x ∈ left')
    (hright : ∀ x, x ∈ right ↔ (x = value ∧ mark ≠ .firstSet) ∨ x ∈ right') :
    Walk left right ((value, mark) :: walk) where
  sorted := by
    refine pairwise_cons.mpr ⟨?_, hwalk.sorted⟩
    intro x hx
    exact hlt x ((hwalk.mem x).mp hx)
  mem := by
    intro x
    rw [map_cons, mem_cons, hwalk.mem, hleft, hright]
    cases mark <;> simp <;> tauto
  both := by
    intro x
    have hnot : x = value → x ∉ left' ∧ x ∉ right' := by
      rintro rfl
      exact ⟨fun h => lt_irrefl _ (hlt x (Or.inl h)), fun h => lt_irrefl _ (hlt x (Or.inr h))⟩
    rw [mem_cons, hwalk.both, hleft, hright, Prod.mk.injEq]
    cases mark <;> simp <;> tauto

theorem setIterator_walk {n : Nat} {left right : List Host} (hleft : Sorted left)
    (hright : Sorted right) (hn : left.length + right.length ≤ n) :
    Walk left right (setIterator n left right) := by
  have hnil : Sorted [] := List.Pairwise.nil
  induction n generalizing left right with
  | zero =>
    obtain rfl : left = [] := eq_nil_of_length_eq_zero (by omega)
    obtain rfl : right = [] := eq_nil_of_length_eq_zero (by omega)
    exact ⟨hnil, by simp [setIterator], by simp [setIterator]⟩
  | succ n ih =>
    cases left with
    | nil =>
      cases right with
      | nil => exact ⟨hnil, by simp [setIterator], by simp [setIterator]⟩
      | cons second rest' =>
        obtain ⟨hsecond, hrest'⟩ := pairwise_cons.mp hright
        rw [setIterator]
        exact (ih hnil hrest' (by simpa using hn)).cons (by simpa using hsecond) (by simp) (by simp)
    | cons first rest =>
      cases right with
      | nil =>
        obtain ⟨hfirst, hrest⟩ := pairwise_cons.mp hleft
        rw [setIterator]
        exact (ih hrest hnil (by simpa using hn)).cons (by simpa using hfirst) (by simp) (by simp)
      -- the smaller of the two first values is next; if they are equal both sets go on
      | cons second rest' =>
        obtain ⟨hfirst, hrest⟩ := pairwise_cons.mp hleft
        obtain ⟨hsecond, hrest'⟩ := pairwise_cons.mp hright
        simp only [length_cons] at hn
        rcases lt_trichotomy first second with hlt | rfl | hlt
        · rw [setIterator, if_pos hlt]
          refine (ih hrest hright (by simp only [length_cons]; omega)).cons ?_ (by simp) (by simp)
          rintro x (hx | hx)
          · exact hfirst x hx
          · rcases mem_cons.mp hx with rfl | hx
            · exact hlt
            · exact hlt.trans (hsecond x hx)
        · rw [setIterator, if_neg (lt_irrefl _), if_neg (lt_irrefl _)]
          refine (ih hrest hrest' (by omega)).cons ?_ (by simp) (by simp)
          rintro x (hx | hx)
          · exact hfirst x hx
          · exact hsecond x hx
        · rw [setIterator, if_neg (lt_asymm hlt), if_pos hlt]
          refine (ih hleft hrest' (by simp only [length_cons]; omega)).cons ?_ (by simp) (by simp)
          rintro x (hx | hx)
          · rcases mem_cons.mp hx with rfl | hx
            · exact hlt
            · exact hlt.trans (hfirst x hx)
          · exact hsecond x hx

/-- What is in both sets if there is anything, or else all of both. -/
theorem intersectionOrUnion_spec {left right : List Host} (hleft : Sorted left)
    (hright : Sorted right) : Sorted (intersectionOrUnion left right) ∧
      (intersectionOrUnion left right).toFinset = join left.toFinset right.toFinset := by
  have hwalk := setIterator_walk hleft hright (le_refl _)
  unfold intersectionOrUnion
  dsimp only
  generalize setIterator (left.length + right.length) left right = walk at hwalk
  have hany : walk.any (fun pos => pos.2 = .bothSets) ↔ (left.toFinset ∩ right.toFinset).Nonempty := by
    rw [any_eq_true]
    constructor
    · rintro ⟨⟨x, mark⟩, hmem, hmark⟩
      obtain rfl : mark = .bothSets := by simpa using hmark
      exact ⟨x, by simpa using (hwalk.both x).mp hmem⟩
    · rintro ⟨x, hx⟩
      exact ⟨(x, .bothSets), (hwalk.both x).mpr (by simpa using hx), by simp⟩
  split_ifs with h
  · -- only what is in both is kept
    refine ⟨hwalk.sorted.sublist ((filter_sublist).map _), ?_⟩
    rw [join, if_pos (hany.mp h)]
    ext x
    rw [mem_toFinset, Finset.mem_inter, mem_toFinset, mem_toFinset, ← hwalk.both x]
    constructor
    · intro hx
      obtain ⟨⟨y, mark⟩, hmem, rfl⟩ := mem_map.mp hx
      obtain ⟨hmem, hmark⟩ := mem_filter.mp hmem
      obtain rfl : mark = .bothSets := by simpa using hmark
      exact hmem
    · intro hx
      exact mem_map.mpr ⟨_, mem_filter.mpr ⟨hx, by simp⟩, rfl⟩
  · refine ⟨hwalk.sorted, ?_⟩
    rw [join, if_neg (fun hboth => h (hany.mpr hboth))]
    ext x
    rw [mem_toFinset, Finset.mem_union, mem_toFinset, mem_toFinset, hwalk.mem]

/-! ## Section 3: Joined trees -/

def hopSet (node : Node) : Finset Host := node.m_firstHops.toFinset

theorem keeps_pick : Keeps hopSet pick := by
  intro h node hne
  have hhops : Hops (· ∈ hopSet node) node.m_firstHops := by
    refine ⟨?_, fun x hx => mem_toFinset.mpr hx⟩
    intro hnil
    simp [hopSet, hnil] at hne
  refine ⟨hhops.pick h, fun hmem => ?_⟩
  rw [pick, if_pos (by simpa [hopSet] using hmem)]

/-- Before the sets are joined every leaf has a single hop. -/
def LeafHop (n : Nat) (node : Node) : Prop := n = 0 → ∃ x, node.m_firstHops = [x]

theorem grown_leafHop (n : Nat) (l : List (IPAddress × Host)) : (addedTree n l).Grown LeafHop n := by
  refine Grown.insertAll length_keys ?_ (grown_null n)
  intro e _ left d _ hleaf
  exact ⟨e.2, by rw [update, if_pos hleaf]⟩

theorem joined_joinSets {n : Nat} {t : PrefixTree Node} (ht : t.Grown LeafHop n) :
    (joinSets t).Joined hopSet ∧ Sorted ((joinSets t).dataD Node.new).m_firstHops := by
  induction n generalizing t with
  | zero =>
    cases t with
    | null => exact ⟨trivial, List.Pairwise.nil⟩
    | node node zero one =>
      -- a leaf keeps its hop
      obtain ⟨hleaf, rfl, rfl⟩ := ht
      obtain ⟨x, hx⟩ := hleaf rfl
      refine ⟨⟨?_, by simp [joinSets], trivial, trivial⟩, ?_⟩
      · simp [hopSet, joinSets, hx]
      · simp [joinSets, dataD, hx]
  | succ n ih =>
    cases t with
    | null => exact ⟨trivial, List.Pairwise.nil⟩
    | node node zero one =>
      obtain ⟨-, hchild, hz, ho⟩ := ht
      obtain ⟨hzero, hsortz⟩ := ih hz
      obtain ⟨hone, hsorto⟩ := ih ho
      have hchild' : joinSets zero ≠ null ∨ joinSets one ≠ null :=
        hchild.imp (fun h => h ∘ joinSets_eq_null.mp) (fun h => h ∘ joinSets_eq_null.mp)
      have htop : ∀ t : PrefixTree Node, t.Joined hopSet → t ≠ null → (top hopSet t).Nonempty := by
        intro t ht hne
        cases t with
        | null => exact absurd rfl hne
        | node d z o => exact ht.1
      have hjoin : (join (top hopSet (joinSets zero)) (top hopSet (joinSets one))).Nonempty :=
        join_nonempty (hchild'.imp (htop _ hzero) (htop _ hone))
      rw [joinSets]
      -- an only child hands up its hops, and of two children the hops are joined
      cases hz' : joinSets zero with
      | null =>
        cases ho' : joinSets one with
        | null => simp [hz', ho'] at hchild'
        | node right _ _ =>
          rw [hz', ho'] at hjoin
          rw [ho'] at hone hsorto
          exact ⟨⟨hone.1, fun _ => (empty_join _).symm, trivial, hone⟩, hsorto⟩
      | node left _ _ =>
        cases ho' : joinSets one with
        | null =>
          rw [hz', ho'] at hjoin
          rw [hz'] at hzero hsortz
          exact ⟨⟨hzero.1, fun _ => (join_empty _).symm, hzero, trivial⟩, hsortz⟩
        | node right _ _ =>
          rw [hz', ho'] at hjoin
          rw [hz'] at hzero hsortz
          rw [ho'] at hone hsorto
          obtain ⟨hsorted, hset⟩ := intersectionOrUnion_spec hsortz hsorto
          refine ⟨⟨?_, fun _ => hset, hzero, hone⟩, hsorted⟩
          rw [hopSet]
          exact hset ▸ hjoin

/-! ## Section 4: Optimality -/

section

variable {n : Nat} {number : IPAddress} {l : List (IPAddress × Host)}

/-- The path of a leaf is that of an address that was added. -/
theorem exists_of_at? {k : List Bool} (hk : k.length = n) {d : Node}
    (hat : (addedTree n l).at? k = some d) : ∃ e ∈ l, bits e.1 n = k := by
  rw [addedTree, at?_insertAll length_keys hk] at hat
  cases hfilter : (keys n l).filter fun e => e.1 = k with
  | nil => simp [hfilter] at hat
  | cons key rest =>
    have hmem : key ∈ (keys n l).filter fun e => e.1 = k := by simp [hfilter]
    obtain ⟨hmem, hkey⟩ := mem_filter.mp hmem
    obtain ⟨e, he, rfl⟩ := mem_map.mp hmem
    exact ⟨e, he, by simpa using hkey⟩

theorem hop_unique (hdistinct : (l.map Prod.fst).Nodup) {e : IPAddress × Host} (he : e ∈ l) :
    ∀ y, (e.1, y) ∈ l → y = e.2 := by
  intro y hy
  have heq := inj_on_of_nodup_map hdistinct hy he rfl
  exact congrArg Prod.snd heq

theorem length_of_mem_announce {other : Host} (hother : ∀ e ∈ l, e.2 ≠ other)
    {e : List Bool × Host} (he : e ∈ (joinSets (addedTree n l)).announce pick other) : e.1.length ≤ n := by
  have hgrown := grown_joinSets (grown_addedTree (n := n) (R := (· ≠ other)) hother)
  exact (hgrown.announce (Q := fun _ => True) (fun _ _ _ _ _ => trivial) he).1

/-- No table has fewer routes than there are announcements. -/
theorem length_announce_le {S : Finset PrefixRoute} {other : Host} (hn : n ≤ 32)
    (hin : ∀ e ∈ l, e.1 >>> n = number) (hdistinct : (l.map Prod.fst).Nodup)
    (hS : ∀ p ∈ S, p.In n number) (hleads : ∀ e ∈ l, PrefixRoute.Leads S e.1 e.2) :
    ((joinSets (addedTree n l)).announce pick other).length ≤ S.card := by
  have hgrown := grown_leafHop n l
  have hle := length_announce_le_card (P := Joined fun _ => True) (h := other)
    (S := S.image fun p => (p.path n, p.hop))
    (grown_joinSets (grown_addedTree fun _ _ => trivial)) (joined_joinSets hgrown).1 keeps_pick ?_
  · exact hle.trans Finset.card_image_le
  intro k d hk hat
  rw [at?_joinSets hgrown hk] at hat
  obtain ⟨⟨a, x⟩, he, rfl⟩ := exists_of_at? hk hat
  obtain ⟨d', hat', hd'⟩ := at?_addedTree hn hin he (hop_unique hdistinct he)
  rw [hat] at hat'
  cases hat'
  have ha := hin _ he
  have hnumber := number_lt_of_ushiftRight hn ha
  have hlead := hleads _ he
  refine ⟨x, by simp [hopSet, hd'], ?_, ?_⟩
  · -- the longest path belongs to a longest match
    intro e hmem hpre hlongest
    obtain ⟨p, hp, rfl⟩ := Finset.mem_image.mp hmem
    refine hlead.longest p hp (((hS p hp).matches_iff hn hnumber).mpr ⟨ha, hpre⟩) ?_
    intro p' hp' hmatch'
    have hpre' := (((hS p' hp').matches_iff hn hnumber).mp hmatch').2
    have hle := hlongest _ (Finset.mem_image.mpr ⟨p', hp', rfl⟩) hpre'
    have hlength := (hS p hp).length_path hn
    have hlength' := (hS p' hp').length_path hn
    dsimp only at hle
    omega
  · intro hnone
    obtain ⟨p, hp, hmatch⟩ := hlead.matched
    have hpre := (((hS p hp).matches_iff hn hnumber).mp hmatch).2
    exact absurd hpre (hnone _ (Finset.mem_image.mpr ⟨p, hp, rfl⟩))

variable {ip : HostHostToIpMap} {source other : Host}

theorem length_printRouteToSubnet {sourceIp firstHopIp destSubnet : IPAddress} {size cost : Nat}
    (hne : size = 32 → destSubnet ≠ firstHopIp) :
    (printRouteToSubnet sourceIp firstHopIp destSubnet size cost).length = 1 := by
  unfold printRouteToSubnet
  split_ifs with h32
  · rw [printRouteToIp, if_pos (hne h32)]
    rfl
  · rfl
  · rfl

/-- Where the hops of the addresses are neighbours, and none of the addresses is that of a
    neighbour, every announcement is printed as one route. -/
theorem length_printed (hn : n ≤ 32) (hin : ∀ e ∈ l, e.1 >>> n = number)
    (hhops : ∀ e ∈ l, ((ip.entry source).find e.2).isSome)
    (hexplicit : ∀ e ∈ l, ∀ pos ∈ ip.entry source, pos.2.2 ≠ e.1) :
    (((joinSets (addedTree n l)).announce pick other).flatMap
      (routeAt (ip.entry source) n number)).length = ((joinSets (addedTree n l)).announce pick other).length := by
  have hone : ∀ e ∈ (joinSets (addedTree n l)).announce pick other,
      (routeAt (ip.entry source) n number e).length = 1 := by
    intro e he
    obtain ⟨hlength, hsome⟩ := (grown_joinSets (grown_addedTree
      (R := fun x => ((ip.entry source).find x).isSome) hhops)).announce
      (Q := fun x => ((ip.entry source).find x).isSome) (fun n h d hd _ => hd.2.pick h) he
    obtain ⟨pos, hfind⟩ := Option.isSome_iff_exists.mp hsome
    unfold routeAt
    rw [hfind]
    apply length_printRouteToSubnet
    intro hsize heq
    -- a route to a single address is to one that was added
    have hfull : e.1.length = n := by
      unfold IP_SIZE at hsize
      omega
    obtain ⟨d, hat⟩ := exists_at?_of_announce he
    rw [at?_joinSets (grown_leafHop n l) hfull] at hat
    obtain ⟨e', he', hbits⟩ := exists_of_at? hfull hat
    have ha := hin e' he'
    have hsubnet := (ushiftRight_eq_subnetAt hn (number_lt_of_ushiftRight hn ha) hlength).mpr
      ⟨ha, hbits ▸ prefix_refl _⟩
    refine hexplicit e' he' _ (HostEntry.mem_of_find hfind) ?_
    rw [hfull, Nat.sub_self] at hsubnet
    rw [← heq, hfull, Nat.sub_self, ← hsubnet]
    simp
  generalize (joinSets (addedTree n l)).announce pick other = announced at hone
  induction announced with
  | nil => rfl
  | cons e rest ih =>
    rw [flatMap_cons, length_append, hone e (by simp), length_cons, ih fun e' he' => hone e' (by simp [he'])]
    omega

/-- The announcements lead every address to its hop. -/
theorem leads_announce (hn : n ≤ 32) (hin : ∀ e ∈ l, e.1 >>> n = number)
    (hdistinct : (l.map Prod.fst).Nodup) (hother : ∀ e ∈ l, e.2 ≠ other) {e : IPAddress × Host}
    (he : e ∈ l) : PrefixRoute.Leads (((joinSets (addedTree n l)).announce pick other).map
      (PrefixRoute.ofPath n number)).toFinset e.1 e.2 := by
  have hl : l ≠ [] := ne_nil_of_mem he
  have hgrown := grown_joinSets (grown_addedTree (n := n) (R := (· ≠ other)) hother)
  have ha := hin e he
  have hnumber := number_lt_of_ushiftRight hn ha
  have hlength : ∀ e' ∈ (joinSets (addedTree n l)).announce pick other, e'.1.length ≤ n :=
    fun e' he' => length_of_mem_announce hother he'
  have hmem : ∀ p, p ∈ (((joinSets (addedTree n l)).announce pick other).map
      (PrefixRoute.ofPath n number)).toFinset ↔
        ∃ e' ∈ (joinSets (addedTree n l)).announce pick other, PrefixRoute.ofPath n number e' = p := by
    intro p
    rw [mem_toFinset, mem_map]
  constructor
  · -- the root is announced
    cases htree : joinSets (addedTree n l) with
    | null => exact absurd (joinSets_eq_null.mp htree) (addedTree_ne_null hl)
    | node d z o =>
      rw [htree] at hgrown hmem
      have hne : pick other d ≠ other := hgrown.node.1.2.pick other
      have hroot : (([] : List Bool), pick other d) ∈ (node d z o).announce pick other :=
        mem_announce_node.mpr (Or.inl ⟨rfl, hne⟩)
      refine ⟨PrefixRoute.ofPath n number ([], pick other d), (hmem _).mpr ⟨_, hroot, rfl⟩, ?_⟩
      exact (PrefixRoute.ofPath_matches_iff hn hnumber (by simp)).mpr ⟨ha, nil_prefix⟩
  · intro p hp hmatch hlongest
    obtain ⟨e', he', rfl⟩ := (hmem p).mp hp
    have hpre := ((PrefixRoute.ofPath_matches_iff hn hnumber (hlength e' he')).mp hmatch).2
    have hchoice := longest_follow he' hpre ?_
    · obtain ⟨d, hat, hd⟩ := at?_addedTree hn hin he (hop_unique hdistinct he)
      have hat' := (at?_joinSets (grown_leafHop n l) (by simp)).trans hat
      exact hchoice.trans (follow_eq_of_at? hat' (pick_singleton hd))
    · -- a longer path would belong to a longer match
      intro e'' he'' hpre''
      have hmatch'' := (PrefixRoute.ofPath_matches_iff hn hnumber (hlength e'' he'')).mpr ⟨ha, hpre''⟩
      have hle := hlongest _ ((hmem _).mpr ⟨e'', he'', rfl⟩) hmatch''
      have h1 := hlength e' he'
      have h2 := hlength e'' he''
      simp only [PrefixRoute.ofPath, IP_SIZE] at hle
      omega

/-- For addresses of a subnet, each with a neighbour for its first hop and none of them that of
    a neighbour, as many routes are printed as the smallest table has that sends every one of
    them to its first hop by routes within the subnet. -/
theorem printRoutes_optimal (hpos : 0 < n) (hn : n ≤ 32) (hin : ∀ e ∈ l, e.1 >>> n = number)
    (hdistinct : (l.map Prod.fst).Nodup)
    (hhops : ∀ e ∈ l, ((ip.entry source).find e.2).isSome)
    (hexplicit : ∀ e ∈ l, ∀ pos ∈ ip.entry source, pos.2.2 ≠ e.1) :
    ∃ rs, IpTree.printRoutes OptimalIpTree ip source number
        (l.foldl (fun t e => OptimalIpTree.addRoute e.1 e.2 (IP_SIZE - n) t) OptimalIpTree.reset) =
        .ok rs ∧
      IsLeast {count | ∃ S : Finset PrefixRoute, (∀ p ∈ S, p.In n number) ∧
        (∀ e ∈ l, PrefixRoute.Leads S e.1 e.2) ∧ S.card = count} rs.length := by
  rcases eq_or_ne l [] with rfl | hl
  · exact ⟨[], rfl, ⟨∅, by simp, by simp, rfl⟩, fun _ _ => Nat.zero_le _⟩
  -- the parent of the root has a hop that no address has, so that the root is announced
  obtain ⟨other, hother⟩ := Infinite.exists_notMem_finset (l.map Prod.snd).toFinset
  have hother : ∀ e ∈ l, e.2 ≠ other := by
    rintro e he rfl
    exact hother (mem_toFinset.mpr (mem_map.mpr ⟨e, he, rfl⟩))
  refine ⟨_, printRoutes_added hpos hn hl hother number, ?_⟩
  rw [length_printed hn hin hhops hexplicit]
  have hleast : ∀ S : Finset PrefixRoute, (∀ p ∈ S, p.In n number) → (∀ e ∈ l, PrefixRoute.Leads S e.1 e.2) →
        ((joinSets (addedTree n l)).announce pick other).length ≤ S.card :=
    fun S hS hleads => length_announce_le hn hin hdistinct hS hleads
  constructor
  · -- the announcements are such a table themselves
    have hleads := fun e he => leads_announce hn hin hdistinct hother (e := e) he
    have hS : ∀ p ∈ (((joinSets (addedTree n l)).announce pick other).map
        (PrefixRoute.ofPath n number)).toFinset, p.In n number := by
      intro p hp
      obtain ⟨e', he', rfl⟩ := mem_map.mp (mem_toFinset.mp hp)
      obtain ⟨e, he⟩ := exists_mem_of_ne_nil l hl
      exact PrefixRoute.in_ofPath hn (number_lt_of_ushiftRight hn (hin e he)) (length_of_mem_announce hother he')
    refine ⟨_, hS, hleads, le_antisymm ?_ (hleast _ hS hleads)⟩
    exact (toFinset_card_le _).trans (by rw [length_map])
  · rintro count ⟨S, hS, hleads, rfl⟩
    exact hleast S hS hleads

end

/-- Three addresses in 10.0.0.0/8 with two hops between them. -/
theorem printRoutes_optimal_three : ∃ rs, IpTree.printRoutes OptimalIpTree
        [[(1, 0x0A000001, 0x0A000002), (2, 0x0A000003, 0x0A000004)]] 0 10
        (List.foldl (fun t e => OptimalIpTree.addRoute e.1 e.2 (IP_SIZE - 24) t) OptimalIpTree.reset
          [(0x0A010001, 1), (0x0A020001, 2), (0x0A020002, 1)]) = .ok rs ∧
      IsLeast {count | ∃ S : Finset PrefixRoute, (∀ p ∈ S, p.In 24 10) ∧
        (∀ e ∈ [((0x0A010001 : IPAddress), (1 : Host)), (0x0A020001, 2), (0x0A020002, 1)],
          PrefixRoute.Leads S e.1 e.2) ∧ S.card = count} rs.length :=
  printRoutes_optimal (by decide) (by decide) (by decide) (by decide) (by decide) (by decide)

end OptimalIpTree

end Dijkstra

end Emulab
