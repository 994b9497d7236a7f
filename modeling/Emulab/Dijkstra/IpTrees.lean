import Emulab.Dijkstra.Subnets

/-! # The two kinds of trees

  Both trees announce first hops along their paths, one by the votes of a
  node and the other by its set. A leaf knows a single hop, so the choice at
  the end of the path of an address is the hop with which it was added.
-/

namespace Emulab

open List

namespace Dijkstra

open PrefixTree

/-- What a tree compressor needs of its trees: whatever addresses of a subnet were added, each
    with a neighbour, the routes that are printed serve them. -/
def IpTree.Good {T : Type} (tree : IpTree T) : Prop :=
  ∀ (ip : HostHostToIpMap) (source : Host) (n : Nat) (number : IPAddress)
    (l : List (IPAddress × Host)), 0 < n → n ≤ 32 →
    (∀ e ∈ l, e.1 >>> n = number) →
    (∀ e ∈ l, e.2 < INT_MAX ∧ ∃ ips, (ip.entry source).find e.2 = some ips) →
    ∃ rs, tree.printRoutes ip source number
        (l.foldl (fun t e => tree.addRoute e.1 e.2 (IP_SIZE - n) t) tree.reset) = .ok rs ∧
      Serves (ip.entry source) n number l rs

theorem serves_nil (entry : HostEntry) (n : Nat) (number : IPAddress) : Serves entry n number [] [] where
  within := by simp
  served := by simp

/-! ## Keys -/

section

variable {n : Nat} {number a b : IPAddress}

theorem number_lt_of_ushiftRight (hn : n ≤ 32) (h : a >>> n = number) : number.toNat < 2 ^ (32 - n) := by
  rw [← h, BitVec.toNat_ushiftRight, Nat.shiftRight_eq_div_pow]
  apply Nat.div_lt_of_lt_mul
  rw [← pow_add, Nat.add_sub_cancel' hn]
  exact a.isLt

/-- Within a subnet an address is given by its path. -/
theorem eq_of_bits (hn : n ≤ 32) (ha : a >>> n = number) (hb : b >>> n = number)
    (hbits : bits a n = bits b n) : a = b := by
  have hlt := number_lt_of_ushiftRight hn ha
  have hlength : (bits b n).length ≤ n := by simp
  have hat := (ushiftRight_eq_subnetAt hn hlt hlength).mpr ⟨ha, hbits ▸ prefix_refl _⟩
  have hbt := (ushiftRight_eq_subnetAt hn hlt hlength).mpr ⟨hb, prefix_refl _⟩
  rw [← hbt] at hat
  simpa using hat

end

theorem routeAt_cons (entry : HostEntry) (n : Nat) (subnet : IPAddress) (bit : Bool) (e : List Bool × Host) :
    routeAt entry n subnet (bit :: e.1, e.2) = routeAt entry (n - 1) (childSubnet subnet bit) e := by
  unfold routeAt
  have hlength : n - (e.1.length + 1) = n - 1 - e.1.length := by omega
  simp only [length_cons, hlength]
  rfl

theorem flatMap_routeAt_child (entry : HostEntry) (n : Nat) (subnet : IPAddress) (bit : Bool)
    (l : List (List Bool × Host)) :
    (l.map fun e => (bit :: e.1, e.2)).flatMap (routeAt entry n subnet) =
      l.flatMap (routeAt entry (n - 1) (childSubnet subnet bit)) := by
  rw [flatMap_map]
  exact flatMap_congr fun e _ => routeAt_cons entry n subnet bit e

def keys (n : Nat) (l : List (IPAddress × Host)) : List (List Bool × Host) :=
  l.map fun e => (bits e.1 n, e.2)

theorem length_keys {n : Nat} {l : List (IPAddress × Host)} : ∀ e ∈ keys n l, e.1.length = n := by
  intro e he
  obtain ⟨e', -, rfl⟩ := mem_map.mp he
  simp

theorem hop_of_key {n : Nat} {number : IPAddress} {l : List (IPAddress × Host)} (hn : n ≤ 32)
    (hin : ∀ e ∈ l, e.1 >>> n = number) {a : IPAddress} {x : Host} (hx : (a, x) ∈ l)
    (hunique : ∀ y, (a, y) ∈ l → y = x) : ∀ e ∈ keys n l, e.1 = bits a n → e.2 = x := by
  intro e he hkey
  obtain ⟨⟨b, y⟩, hmem, rfl⟩ := mem_map.mp he
  have hab : b = a := eq_of_bits hn (hin _ hmem) (hin _ hx) hkey
  subst hab
  exact hunique y hmem

/-- The routes announced by a tree whose choices are neighbours, and whose leaves choose the
    hops of their addresses. -/
theorem serves_of_grown {δ : Type} (pick : Host → δ → Host) {P : Nat → δ → Prop}
    {entry : HostEntry} {n : Nat} {number : IPAddress} {l : List (IPAddress × Host)}
    {t : PrefixTree δ} (hn : n ≤ 32) (hl : l ≠ []) (hin : ∀ e ∈ l, e.1 >>> n = number)
    (ht : t.Grown P n) (hne : t ≠ null)
    (hpick : ∀ n h d, P n d → pick h d < INT_MAX ∧ ∃ ips, entry.find (pick h d) = some ips)
    (hleaf : ∀ a x, (a, x) ∈ l → (∀ y, (a, y) ∈ l → y = x) → ∃ d, t.at? (bits a n) = some d ∧ ∀ h, pick h d = x) :
    Serves entry n number l ((t.announce pick INT_MAX).flatMap (routeAt entry n number)) := by
  obtain ⟨e, he⟩ := exists_mem_of_ne_nil l hl
  refine serves_of_announce hn (number_lt_of_ushiftRight hn (hin e he)) ?_ ?_ hin ?_
  · intro e he
    exact ht.announce (Q := fun x => ∃ ips, entry.find x = some ips) (fun n h d hd _ => (hpick n h d hd).2) he
  · cases t with
    | null => exact absurd rfl hne
    | node d z o =>
      have hlt := (hpick n INT_MAX d ht.node.1).1
      exact ⟨_, mem_announce_node.mpr (Or.inl ⟨rfl, Nat.ne_of_lt hlt⟩)⟩
  · intro a x hx hunique
    obtain ⟨d, hat, hchoice⟩ := hleaf a x hx hunique
    exact follow_eq_of_at? hat hchoice

/-! ## Voting -/

namespace VoteIpTree

/-- A node of the tree goes by the vote of the hops below it. -/
def pick (h : Host) (node : Node) : Host :=
  match node.m_childHops with
  | [] => h
  | first :: rest => (findMostPos first rest).1

theorem addRouteAt_eq_insert (ip : IPAddress) (hop : Host) (left : Nat) (t : PrefixTree Node) :
    addRouteAt ip hop left t =
      insert Node.new (fun left => Node.passed (IP_SIZE - left) hop) (bits ip left) t := by
  induction left generalizing t with
  | zero => rfl
  | succ left ih =>
    rw [addRouteAt, ih, ih, bits, PrefixTree.insert, length_bits]

theorem mem_increment {hop : Host} {l : List (Host × Nat)} {pos : Host × Nat}
    (h : pos ∈ increment hop l) : pos.1 = hop ∨ ∃ pos' ∈ l, pos.1 = pos'.1 := by
  induction l with
  | nil => simp_all [increment]
  | cons first rest ih =>
    unfold increment at h
    split_ifs at h with hlt heq
    · rcases mem_cons.mp h with rfl | h
      · exact Or.inl rfl
      · exact Or.inr ⟨pos, h, rfl⟩
    · rcases mem_cons.mp h with rfl | h
      · exact Or.inl heq.symm
      · exact Or.inr ⟨pos, by simp [h], rfl⟩
    · rcases mem_cons.mp h with rfl | h
      · exact Or.inr ⟨pos, by simp, rfl⟩
      · exact (ih h).imp id fun ⟨pos', hpos', heq⟩ => ⟨pos', by simp [hpos'], heq⟩

theorem increment_ne_nil (hop : Host) (l : List (Host × Nat)) : increment hop l ≠ [] := by
  cases l with
  | nil => simp [increment]
  | cons first rest =>
    unfold increment
    split_ifs <;> simp

theorem findMostPos_mem (first : Host × Nat) (rest : List (Host × Nat)) :
    findMostPos first rest ∈ first :: rest := by
  induction rest generalizing first with
  | nil => simp [findMostPos]
  | cons pos rest ih =>
    unfold findMostPos
    split_ifs
    · exact mem_cons_of_mem _ (ih pos)
    · rcases mem_cons.mp (ih first) with h | h
      · rw [h]
        exact mem_cons_self
      · exact mem_cons_of_mem _ (mem_cons_of_mem _ h)

/-- A node was passed, and only for hops that satisfy `R`. -/
def Voted (R : Host → Prop) (node : Node) : Prop :=
  node.m_childHops ≠ [] ∧ ∀ pos ∈ node.m_childHops, R pos.1

theorem Voted.passed {R : Host → Prop} {node : Node} {hop : Host} (depth : Nat) (hhop : R hop)
    (hnode : node = Node.new ∨ Voted R node) : Voted R (node.passed depth hop) := by
  refine ⟨increment_ne_nil _ _, ?_⟩
  intro pos hpos
  rcases mem_increment hpos with heq | ⟨pos', hpos', heq⟩
  · rwa [heq]
  · rcases hnode with rfl | hnode
    · cases hpos'
    · rw [heq]
      exact hnode.2 pos' hpos'

theorem Voted.pick {R : Host → Prop} {node : Node} (h : Voted R node) (h' : Host) : R (pick h' node) := by
  unfold VoteIpTree.pick
  obtain ⟨hne, hall⟩ := h
  cases hhops : node.m_childHops with
  | nil => exact absurd hhops hne
  | cons first rest => exact hall _ (hhops ▸ findMostPos_mem first rest)

theorem printRoutesBelow_eq {ip : HostHostToIpMap} {source : Host} {R : Host → Prop} {n : Nat}
    {t : PrefixTree Node} (hR : ∀ x, R x → ∃ ips, (ip.entry source).find x = some ips)
    (hn : n ≤ 32) (ht : t.Grown (fun n node => node.m_depth = IP_SIZE - n ∧ Voted R node) n)
    (h : Host) (subnet : IPAddress) :
    printRoutesBelow ip source h subnet t =
      .ok ((t.announce pick h).flatMap (routeAt (ip.entry source) n subnet)) := by
  induction t generalizing n h subnet with
  | null => rfl
  | node node zero one ihz iho =>
    obtain ⟨⟨hdepth, hvoted⟩, hz, ho⟩ := ht.node
    obtain ⟨ips, hips⟩ := hR _ (hvoted.pick h)
    cases hhops : node.m_childHops with
    | nil => exact absurd hhops hvoted.1
    | cons first rest =>
      have hpick : pick h node = (findMostPos first rest).1 := by rw [pick, hhops]
      have hzero := ihz (by omega) hz (pick h node) (subnet <<< 1)
      have hone := iho (by omega) ho (pick h node) ((subnet <<< 1) + 1#32)
      rw [announce, flatMap_append, flatMap_append, flatMap_routeAt_child, flatMap_routeAt_child]
      rw [hpick] at hips hzero hone ⊢
      rw [printRoutesBelow, hhops]
      dsimp only
      generalize (findMostPos first rest).1 = most at hips hzero hone ⊢
      by_cases hsame : most = h
      · simp [hsame ▸ hzero, hsame ▸ hone, hsame, pure, Except.pure, bind, Except.bind, childSubnet]
      · simp [hsame, hzero, hone, hips, hdepth, routeAt, subnetAt, pure, Except.pure, bind,
          Except.bind, childSubnet]

theorem good : IpTree.Good VoteIpTree := by
  intro ip source n number l hpos hn hin hhops
  rcases eq_or_ne l [] with rfl | hl
  · exact ⟨[], rfl, serves_nil _ _ _⟩
  -- the tree is that of the keys
  let update : Host → Nat → Node → Node := fun hop left => Node.passed (IP_SIZE - left) hop
  have hkeys : keys n l ≠ [] := by simpa [keys] using hl
  have htree : l.foldl (fun t e => VoteIpTree.addRoute e.1 e.2 (IP_SIZE - n) t) VoteIpTree.reset =
      insertAll Node.new update (keys n l) null := by
    rw [← insertAll_fresh hkeys, insertAll, keys, foldl_map]
    have hleft : IP_SIZE - (IP_SIZE - n) = n := by
      unfold IP_SIZE
      omega
    simp only [VoteIpTree, addRouteAt_eq_insert, hleft]
    rfl
  have hgrown : (insertAll Node.new update (keys n l) null).Grown (fun n node =>
      node.m_depth = IP_SIZE - n ∧
        Voted (fun x => x < INT_MAX ∧ ∃ ips, (ip.entry source).find x = some ips) node) n := by
    refine Grown.insertAll length_keys ?_ (grown_null n)
    intro e he left d hd
    obtain ⟨e', he', rfl⟩ := mem_map.mp he
    exact ⟨rfl, Voted.passed _ (hhops e' he') (hd.imp id And.right)⟩
  refine ⟨_, ?_, serves_of_grown pick hn hl hin hgrown (insertAll_ne_null hkeys null) ?_ ?_⟩
  · rw [htree]
    exact printRoutesBelow_eq (fun x hx => hx.2) hn hgrown INT_MAX number
  · intro n h d hd
    exact hd.2.pick h
  · intro a x hx hunique
    obtain ⟨d, hat, hd⟩ := exists_at?_insertAll Node.new update
      (Q := Voted (· = x)) length_keys ⟨(bits a n, x), mem_map.mpr ⟨(a, x), hx, rfl⟩, rfl⟩
      (fun e he hkey d hd => Voted.passed _ (hop_of_key hn hin hx hunique e he hkey) hd)
    exact ⟨d, hat, hd.pick⟩

end VoteIpTree

/-! ## Sets -/

namespace OptimalIpTree

/-- A node stays with the hop of the node above if it can. -/
def pick (h : Host) (node : Node) : Host :=
  if node.m_firstHops.contains h then h else node.m_firstHops.headD 0

/-- Adding an address changes the depths on its path and the set of its leaf. -/
def update (hop : Host) (left : Nat) (node : Node) : Node :=
  if left = 0 then ⟨IP_SIZE, [hop]⟩ else { node with m_depth := IP_SIZE - left }

theorem addRouteAt_eq_insert (ip : IPAddress) (hop : Host) (left : Nat) (t : PrefixTree Node) :
    addRouteAt ip hop left t = insert Node.new (update hop) (bits ip left) t := by
  induction left generalizing t with
  | zero => rfl
  | succ left ih =>
    rw [addRouteAt, ih, ih, bits, PrefixTree.insert, length_bits]
    rfl

theorem mem_setIterator {n : Nat} {left right : List Host} {pos : Host × SET}
    (h : pos ∈ setIterator n left right) : pos.1 ∈ left ∨ pos.1 ∈ right := by
  induction n generalizing left right with
  | zero => simp [setIterator] at h
  | succ n ih =>
    cases left with
    | nil =>
      cases right with
      | nil => simp [setIterator] at h
      | cons second rest' =>
        rcases mem_cons.mp h with rfl | h
        · exact Or.inr (by simp)
        · exact (ih h).imp id (mem_cons_of_mem _)
    | cons first rest =>
      cases right with
      | nil =>
        rcases mem_cons.mp h with rfl | h
        · exact Or.inl (by simp)
        · exact (ih h).imp (mem_cons_of_mem _) id
      | cons second rest' =>
        unfold setIterator at h
        split_ifs at h
        · rcases mem_cons.mp h with rfl | h
          · exact Or.inl (by simp)
          · exact (ih h).imp (mem_cons_of_mem _) id
        · rcases mem_cons.mp h with rfl | h
          · exact Or.inr (by simp)
          · exact (ih h).imp id (mem_cons_of_mem _)
        · rcases mem_cons.mp h with rfl | h
          · exact Or.inr (by simp)
          · exact (ih h).imp (mem_cons_of_mem _) (mem_cons_of_mem _)

theorem setIterator_ne_nil {n : Nat} {first : Host} {rest right : List Host} :
    setIterator (n + 1) (first :: rest) right ≠ [] := by
  cases right with
  | nil => simp [setIterator]
  | cons second rest' =>
    unfold setIterator
    split_ifs <;> simp

/-- A set that is not empty, of hops that satisfy `R`. -/
def Hops (R : Host → Prop) (hops : List Host) : Prop := hops ≠ [] ∧ ∀ x ∈ hops, R x

variable {R : Host → Prop}

theorem Hops.intersectionOrUnion {left right : List Host} (hleft : Hops R left)
    (hright : Hops R right) : Hops R (intersectionOrUnion left right) := by
  unfold OptimalIpTree.intersectionOrUnion
  dsimp only
  have hmem : ∀ pos ∈ setIterator (left.length + right.length) left right, R pos.1 := by
    intro pos hpos
    rcases mem_setIterator hpos with h | h
    · exact hleft.2 _ h
    · exact hright.2 _ h
  split_ifs with hany
  · obtain ⟨pos, hpos, hboth⟩ := any_eq_true.mp hany
    refine ⟨?_, ?_⟩
    · exact ne_nil_of_mem (mem_map.mpr ⟨pos, mem_filter.mpr ⟨hpos, hboth⟩, rfl⟩)
    · intro x hx
      obtain ⟨pos, hpos, rfl⟩ := mem_map.mp hx
      exact hmem pos (mem_filter.mp hpos).1
  · refine ⟨?_, ?_⟩
    · cases left with
      | nil => exact absurd rfl hleft.1
      | cons first rest =>
        rw [length_cons, Nat.add_right_comm]
        simpa using setIterator_ne_nil
    · intro x hx
      obtain ⟨pos, hpos, rfl⟩ := mem_map.mp hx
      exact hmem pos hpos

theorem Hops.pick {node : Node} (h : Hops R node.m_firstHops) (h' : Host) : R (pick h' node) := by
  unfold OptimalIpTree.pick
  split_ifs with hcontains
  · exact h.2 _ (by simpa using hcontains)
  · obtain ⟨hne, hall⟩ := h
    cases hhops : node.m_firstHops with
    | nil => exact absurd hhops hne
    | cons first rest => exact hall _ (by simp [hhops])

/-- Before the sets are joined only the leaves have one. -/
def Added (R : Host → Prop) (n : Nat) (node : Node) : Prop :=
  node.m_depth = IP_SIZE - n ∧ (n = 0 → Hops R node.m_firstHops)

def Joined (R : Host → Prop) (n : Nat) (node : Node) : Prop :=
  node.m_depth = IP_SIZE - n ∧ Hops R node.m_firstHops

variable {t : PrefixTree Node}

theorem joinSets_eq_null : joinSets t = null ↔ t = null := by
  cases t with
  | null => exact Iff.rfl
  | node node zero one => simp [joinSets]

theorem grown_joinSets {n : Nat} (ht : t.Grown (Added R) n) : (joinSets t).Grown (Joined R) n := by
  induction n generalizing t with
  | zero =>
    cases t with
    | null => trivial
    | node node zero one =>
      obtain ⟨⟨hdepth, hhops⟩, rfl, rfl⟩ := ht
      exact ⟨⟨hdepth, hhops rfl⟩, rfl, rfl⟩
  | succ n ih =>
    cases t with
    | null => trivial
    | node node zero one =>
      obtain ⟨⟨hdepth, -⟩, hchild, hz, ho⟩ := ht
      have hz' := ih hz
      have ho' := ih ho
      have hchild' : joinSets zero ≠ null ∨ joinSets one ≠ null :=
        hchild.imp (fun h => h ∘ joinSets_eq_null.mp) (fun h => h ∘ joinSets_eq_null.mp)
      refine ⟨⟨hdepth, ?_⟩, hchild', hz', ho'⟩
      dsimp only
      cases hzero : joinSets zero with
      | null =>
        cases hone : joinSets one with
        | null => simp [hzero, hone] at hchild'
        | node right _ _ => exact (hone ▸ ho').node.1.2
      | node left _ _ =>
        cases hone : joinSets one with
        | null => exact (hzero ▸ hz').node.1.2
        | node right _ _ => exact (hzero ▸ hz').node.1.2.intersectionOrUnion (hone ▸ ho').node.1.2

theorem at?_joinSets {P : Nat → Node → Prop} {n : Nat} (ht : t.Grown P n)
    {k : List Bool} (hk : k.length = n) : (joinSets t).at? k = t.at? k := by
  induction n generalizing t k with
  | zero =>
    obtain rfl := eq_nil_of_length_eq_zero hk
    cases t with
    | null => rfl
    | node node zero one =>
      obtain ⟨-, rfl, rfl⟩ := ht
      rfl
  | succ n ih =>
    cases k with
    | nil => simp at hk
    | cons bit k =>
      have hk' : k.length = n := by simpa using hk
      cases t with
      | null => rfl
      | node node zero one =>
        obtain ⟨-, -, hz, ho⟩ := ht
        cases bit with
        | false => exact ih hz hk'
        | true => exact ih ho hk'

theorem printRoutesBelow_eq {ip : HostHostToIpMap} {source : Host} {n : Nat}
    (ht : t.Grown (Joined R) n) (h : Host) (subnet : IPAddress) :
    printRoutesBelow ip source h subnet t = (t.announce pick h).flatMap (routeAt (ip.entry source) n subnet) := by
  induction t generalizing n h subnet with
  | null => rfl
  | node node zero one ihz iho =>
    obtain ⟨⟨hdepth, hhops⟩, hz, ho⟩ := ht.node
    have hzero := ihz hz (pick h node) (subnet <<< 1)
    have hone := iho ho (pick h node) ((subnet <<< 1) + 1)
    rw [announce, flatMap_append, flatMap_append, flatMap_routeAt_child, flatMap_routeAt_child, printRoutesBelow]
    have hpick : (if node.m_firstHops.contains h then h else node.m_firstHops.headD 0) = pick h node := rfl
    rw [hpick, hzero, hone]
    congr 2
    by_cases hknown : node.m_firstHops.contains h
    · have hsame : pick h node = h := by rw [pick, if_pos hknown]
      rw [if_pos hknown, if_pos hsame, flatMap_nil]
    · have hnew : pick h node ≠ h := by
        intro heq
        have hmem := Hops.pick (R := (· ∈ node.m_firstHops)) ⟨hhops.1, fun x hx => hx⟩ h
        rw [heq] at hmem
        exact hknown (by simpa using hmem)
      rw [if_neg hknown, if_neg hnew, flatMap_singleton, hdepth]
      rfl

theorem printRoutes_eq {ip : HostHostToIpMap} {source : Host} {n : Nat}
    {other : Host} (hR : ∀ x, R x → x ≠ other) (hne : t ≠ null)
    (ht : t.Grown (Added R) (n + 1)) (number : IPAddress) :
    printRoutes ip source number t =
      ((joinSets t).announce pick other).flatMap (routeAt (ip.entry source) (n + 1) number) := by
  have hjoined := grown_joinSets ht
  have hchild : t.zero ≠ .null ∨ t.one ≠ .null := by
    cases t with
    | null => exact absurd rfl hne
    | node node zero one => exact ht.2.1
  unfold printRoutes
  rw [if_pos hchild]
  cases htree : joinSets t with
  | null => exact absurd (joinSets_eq_null.mp htree) hne
  | node node zero one =>
    rw [htree] at hjoined
    obtain ⟨⟨hdepth, hhops⟩, -, -⟩ := hjoined.node
    have hunknown : pick other node = node.m_firstHops.headD 0 := by
      rw [pick, if_neg]
      intro hcontains
      exact hR _ (hhops.2 other (by simpa using hcontains)) rfl
    have hother := hR _ (hhops.pick other)
    have hknown : pick (node.m_firstHops.headD 0) node = node.m_firstHops.headD 0 := by
      unfold pick
      split_ifs <;> rfl
    -- below the root its own hop is not announced again
    show printRoute ip source (node.m_firstHops.headD 0) number node.m_depth ++
      printRoutesBelow ip source (node.m_firstHops.headD 0) number (.node node zero one) = _
    rw [printRoutesBelow_eq hjoined, announce, announce, hknown, if_pos rfl, hunknown,
      if_neg (by rw [← hunknown]; exact hother), hdepth]
    simp only [nil_append, append_assoc, flatMap_append, flatMap_singleton]
    rfl

section

variable {n : Nat} {l : List (IPAddress × Host)}

/-- The tree of the addresses of a list, before its sets are joined. -/
abbrev addedTree (n : Nat) (l : List (IPAddress × Host)) : PrefixTree Node :=
  insertAll Node.new update (keys n l) null

theorem keys_ne_nil (hl : l ≠ []) : keys n l ≠ [] := by simpa [keys] using hl

theorem addRoute_eq_addedTree (hn : n ≤ 32) (hl : l ≠ []) :
    l.foldl (fun t e => OptimalIpTree.addRoute e.1 e.2 (IP_SIZE - n) t) OptimalIpTree.reset = addedTree n l := by
  rw [addedTree, ← insertAll_fresh (keys_ne_nil hl), insertAll, keys, foldl_map]
  have hleft : IP_SIZE - (IP_SIZE - n) = n := by
    unfold IP_SIZE
    omega
  simp only [OptimalIpTree, addRouteAt_eq_insert, hleft]

theorem addedTree_ne_null (hl : l ≠ []) : addedTree n l ≠ null := insertAll_ne_null (keys_ne_nil hl) null

theorem grown_addedTree {R : Host → Prop} (hR : ∀ e ∈ l, R e.2) : (addedTree n l).Grown (Added R) n := by
  refine Grown.insertAll length_keys ?_ (grown_null n)
  intro e he left d _
  obtain ⟨e', he', rfl⟩ := mem_map.mp he
  unfold update
  split_ifs with hleaf
  · exact ⟨by rw [hleaf]; rfl, fun _ => ⟨by simp, by simpa using hR e' he'⟩⟩
  · exact ⟨rfl, fun h => absurd h hleaf⟩

theorem at?_addedTree {number : IPAddress} (hn : n ≤ 32) (hin : ∀ e ∈ l, e.1 >>> n = number)
    {a : IPAddress} {x : Host} (hx : (a, x) ∈ l) (hunique : ∀ y, (a, y) ∈ l → y = x) :
    ∃ d, (addedTree n l).at? (bits a n) = some d ∧ d.m_firstHops = [x] :=
  exists_at?_insertAll Node.new update (Q := fun d => d.m_firstHops = [x]) length_keys
    ⟨(bits a n, x), mem_map.mpr ⟨(a, x), hx, rfl⟩, rfl⟩
    (fun e he hkey d _ => by rw [← hop_of_key hn hin hx hunique e he hkey]; rfl)

theorem pick_singleton {d : Node} {x : Host} (hd : d.m_firstHops = [x]) (h : Host) : pick h d = x := by
  unfold pick
  rw [hd]
  split_ifs with hcontains
  · simpa using hcontains
  · rfl

theorem printRoutes_added {ip : HostHostToIpMap} {source other : Host} (hpos : 0 < n) (hn : n ≤ 32)
    (hl : l ≠ []) (hother : ∀ e ∈ l, e.2 ≠ other) (number : IPAddress) :
    IpTree.printRoutes OptimalIpTree ip source number
        (l.foldl (fun t e => OptimalIpTree.addRoute e.1 e.2 (IP_SIZE - n) t) OptimalIpTree.reset) =
      .ok (((joinSets (addedTree n l)).announce pick other).flatMap (routeAt (ip.entry source) n number)) := by
  obtain ⟨m, rfl⟩ : ∃ m, n = m + 1 := ⟨n - 1, by omega⟩
  rw [addRoute_eq_addedTree hn hl]
  show Except.ok _ = _
  rw [printRoutes_eq (fun x hx => hx) (addedTree_ne_null hl) (grown_addedTree hother) number]

end

theorem good : IpTree.Good OptimalIpTree := by
  intro ip source n number l hpos hn hin hhops
  rcases eq_or_ne l [] with rfl | hl
  · exact ⟨[], rfl, serves_nil _ _ _⟩
  have hgrown := grown_addedTree (n := n)
    (R := fun x => x < INT_MAX ∧ ∃ ips, (ip.entry source).find x = some ips) hhops
  refine ⟨_, printRoutes_added hpos hn hl (fun e he => Nat.ne_of_lt (hhops e he).1) number,
    serves_of_grown pick hn hl hin (grown_joinSets hgrown)
      (fun h => addedTree_ne_null hl (joinSets_eq_null.mp h)) ?_ ?_⟩
  · intro n h d hd
    exact hd.2.pick h
  · intro a x hx hunique
    obtain ⟨d, hat, hd⟩ := at?_addedTree hn hin hx hunique
    exact ⟨d, (at?_joinSets hgrown (by simp)).trans hat, pick_singleton hd⟩

end OptimalIpTree

end Dijkstra

end Emulab
