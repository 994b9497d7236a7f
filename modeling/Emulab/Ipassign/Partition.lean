import Emulab.Lib.Search
import Emulab.Ipassign.GraphConverter

/-! # Connected partitions

  A partitioner numbers the LANs without regard to whether those of a number are connected.
  `makeConnectedGraph` goes through the partitions and searches each from one of its LANs;
  what is not reached becomes a new partition, which comes up later. The partitions are
  numbered from 0 on, and there are `partitionCount` of them.
-/

namespace Emulab.Ipassign

open List Option

/-! ## Section 1: Model -/

def nextInside (graph : Graph) (partitions : List Int) (whichPartition : Int) (current : Nat) : List Nat :=
  (graph.adjacents current).filter fun destLan => partitions[destLan]? = some whichPartition

def firstOf (partitions : List Int) (whichPartition : Int) : Option Nat :=
  ((List.range partitions.length).filter fun i => partitions[i]? = some whichPartition).getLast?

/-- `makeConnectedPartition`. Every LAN enters the queue at most once, so that it is empty after
    as many turns as there are LANs. -/
def makeConnectedPartition (whichPartition partitionCount : Int) (graph : Graph)
    (partitions : List Int) : Option (Int × List Int) :=
  match firstOf partitions whichPartition with
  | none => some (partitionCount, partitions)
  | some first => do
    let connected := Function.update (fun i => !decide (partitions[i]? = some whichPartition)) first true
    let connected ← Search.explore (nextInside graph partitions whichPartition) partitions.length connected [first]
    let newPartition := (List.range partitions.length).any fun i => !connected i
    return (if newPartition then partitionCount + 1 else partitionCount,
      partitions.mapIdx fun i p => if connected i then p else partitionCount)

/-- The loop of `makeConnectedGraph`, from a partition on; `none` when the fuel is used up. -/
def connectFrom (graph : Graph) : (fuel : Nat) → (loop partitionCount : Int) → List Int → Option (Int × List Int)
  | 0, loop, partitionCount, partitions =>
    if loop < partitionCount then none else some (partitionCount, partitions)
  | fuel + 1, loop, partitionCount, partitions =>
    if loop < partitionCount then do
      let (partitionCount, partitions) ←
        makeConnectedPartition loop partitionCount graph partitions
      connectFrom graph fuel (loop + 1) partitionCount partitions
    else some (partitionCount, partitions)

def makeConnectedGraph (fuel : Nat) (partitionCount : Int) (graph : Graph) (partitions : List Int) :
    Option (Int × List Int) := connectFrom graph fuel 0 partitionCount partitions

/-! ## Section 2: One partition -/

/-- Two neighbours of one partition. -/
def Inside (graph : Graph) (partitions : List Int) (v w : Nat) : Prop :=
  w ∈ graph.adjacents v ∧ partitions[v]? = partitions[w]?

/-- There is a way between two LANs that stays within a partition. -/
abbrev Joined (graph : Graph) (partitions : List Int) : Nat → Nat → Prop :=
  Relation.ReflTransGen (Inside graph partitions)

section

variable {graph : Graph} {partitions partitions' : List Int}
  {whichPartition partitionCount partitionCount' : Int} {v w : Nat}

theorem Inside.symm (hsymm : graph.Symmetric) (h : Inside graph partitions v w) :
    Inside graph partitions w v := ⟨hsymm v w h.1, h.2.symm⟩

theorem Joined.symm (hsymm : graph.Symmetric) (h : Joined graph partitions v w) : Joined graph partitions w v := by
  induction h with
  | refl => exact Relation.ReflTransGen.refl
  | tail _ hinside ih => exact Relation.ReflTransGen.head (hinside.symm hsymm) ih

theorem Joined.same (h : Joined graph partitions v w) : partitions[v]? = partitions[w]? := by
  induction h with
  | refl => rfl
  | tail _ hinside ih => exact ih.trans hinside.2

theorem firstOf_none (h : firstOf partitions whichPartition = none) (v : Nat) :
    partitions[v]? ≠ some whichPartition := by
  intro hv
  have hlt := (List.getElem?_eq_some_iff.mp hv).1
  rw [firstOf, List.getLast?_eq_none_iff, filter_eq_nil_iff] at h
  exact h v (mem_range.mpr hlt) (by simpa using hv)

theorem firstOf_some {first : Nat} (h : firstOf partitions whichPartition = some first) :
    partitions[first]? = some whichPartition := by
  have hmem := (mem_filter.mp (mem_of_getLast? h)).2
  simpa using hmem

/-- The LANs that the search of a partition comes to. -/
abbrev Found (graph : Graph) (partitions : List Int) (whichPartition : Int) (first : Nat) : Nat → Prop :=
  Relation.ReflTransGen (Search.Leads (nextInside graph partitions whichPartition)) first

variable {first : Nat}

theorem Found.own (hfirst : partitions[first]? = some whichPartition)
    (h : Found graph partitions whichPartition first v) : partitions[v]? = some whichPartition := by
  cases h with
  | refl => exact hfirst
  | tail _ hlead => simpa using (mem_filter.mp hlead).2

theorem Found.adjacent (hadj : w ∈ graph.adjacents v) (hw : partitions[w]? = some whichPartition)
    (h : Found graph partitions whichPartition first v) : Found graph partitions whichPartition first w :=
  h.tail (mem_filter.mpr ⟨hadj, by simpa using hw⟩)

/-- How LANs are marked when a partition was searched: those of other partitions are, too. -/
structure Marked (graph : Graph) (partitions : List Int) (whichPartition : Int) (first : Nat)
    (connected : Nat → Bool) : Prop where
  others : ∀ v : Nat, partitions[v]? ≠ some whichPartition → connected v = true
  own : ∀ v : Nat, partitions[v]? = some whichPartition →
    (connected v = true ↔ Found graph partitions whichPartition first v)

/-- The search ends. -/
theorem exists_marked (hfirst : firstOf partitions whichPartition = some first) :
    ∃ connected, makeConnectedPartition whichPartition partitionCount graph partitions =
        some (if (List.range partitions.length).any fun i => !connected i then partitionCount + 1
          else partitionCount,
        partitions.mapIdx fun i p => if connected i then p else partitionCount) ∧
      Marked graph partitions whichPartition first connected := by
  have hfirst' := firstOf_some hfirst
  -- the LANs that may enter the queue
  let cls : Finset Nat := (Finset.range partitions.length).filter fun i =>
    partitions[i]? = some whichPartition
  have hcls : ∀ v, v ∈ cls ↔ partitions[v]? = some whichPartition := by
    intro v
    rw [Finset.mem_filter, Finset.mem_range, and_iff_right_iff_imp]
    exact fun hv => (List.getElem?_eq_some_iff.mp hv).1
  have hnext : ∀ v, ∀ w ∈ nextInside graph partitions whichPartition v, w ∈ cls := by
    intro v w hw
    rw [hcls]
    simpa using (mem_filter.mp hw).2
  obtain ⟨connected, hexplore, hconnected⟩ := @Search.explore_class _ _
    (nextInside graph partitions whichPartition) cls partitions.length
    (Function.update (fun i => !decide (partitions[i]? = some whichPartition)) first true) first
    ((hcls first).mpr hfirst') hnext
    (by
      intro w
      rw [hcls]
      by_cases hw : w = first
      · simp [hw]
      · simp [hw])
    (by simpa using Finset.card_filter_le (Finset.range partitions.length) _)
  refine ⟨connected, ?_, ?_, ?_⟩
  · rw [makeConnectedPartition, hfirst]
    simp only [hexplore, bind_eq_bind, bind_some]
    rfl
  · intro v hv
    by_contra hfalse
    have hmem := ((hconnected v).mp (by simpa using hfalse)).1
    exact hv ((hcls v).mp hmem)
  · intro v hv
    have hmem := (hcls v).mpr hv
    have hiff := hconnected v
    rw [← Bool.not_eq_true] at hiff
    tauto

/-- What becomes of the partitions when one of them is searched. -/
structure Split (graph : Graph) (whichPartition partitionCount : Int) (partitions : List Int)
    (partitionCount' : Int) (partitions' : List Int) : Prop where
  length : partitions'.length = partitions.length
  others : ∀ (v : Nat) (x : Int), partitions[v]? = some x → x ≠ whichPartition → partitions'[v]? = some x
  own : ∀ v : Nat, partitions[v]? = some whichPartition →
    partitions'[v]? = some whichPartition ∨ partitions'[v]? = some partitionCount
  connected : ∀ v w : Nat, partitions'[v]? = some whichPartition → partitions'[w]? = some whichPartition →
    Joined graph partitions' v w
  kept : ∀ v w : Nat, w ∈ graph.adjacents v → partitions[v]? = some whichPartition →
    partitions[w]? = some whichPartition → partitions'[v]? = partitions'[w]?
  counted : partitions' = partitions ∧ partitionCount' = partitionCount ∨
    partitionCount' = partitionCount + 1 ∧ whichPartition ∈ partitions' ∧ partitionCount ∈ partitions'

section

variable {connected : Nat → Bool} {result : List Int}

theorem Marked.mem_iff (hmarked : Marked graph partitions whichPartition first connected)
    (hfirst : partitions[first]? = some whichPartition) (hnew : whichPartition ≠ partitionCount)
    (hresult : ∀ v : Nat, result[v]? =
      partitions[v]?.map fun p => if connected v then p else partitionCount) (v : Nat) :
    result[v]? = some whichPartition ↔ Found graph partitions whichPartition first v := by
  rw [hresult, map_eq_some_iff]
  constructor
  · rintro ⟨p, hp, heq⟩
    split at heq
    · next hmark =>
      subst heq
      exact (hmarked.own v hp).mp hmark
    · exact absurd heq.symm hnew
  · intro hfound
    have hv := hfound.own hfirst
    exact ⟨whichPartition, hv, if_pos ((hmarked.own v hv).mpr hfound)⟩

theorem Found.joined (hmem : ∀ v : Nat,
      result[v]? = some whichPartition ↔ Found graph partitions whichPartition first v)
    (h : Found graph partitions whichPartition first v) : Joined graph result first v := by
  induction h with
  | refl => exact Relation.ReflTransGen.refl
  | @tail u w hfound hlead ih =>
    have hw := (hmem w).mpr (hfound.tail hlead)
    exact ih.tail ⟨(mem_filter.mp hlead).1, ((hmem u).mpr hfound).trans hw.symm⟩

theorem Marked.split (hmarked : Marked graph partitions whichPartition first connected)
    (hsymm : graph.Symmetric) (hfirst : partitions[first]? = some whichPartition)
    (hnew : whichPartition ≠ partitionCount) :
    Split graph whichPartition partitionCount partitions
      (if (List.range partitions.length).any fun i => !connected i then partitionCount + 1
        else partitionCount)
      (partitions.mapIdx fun i p => if connected i then p else partitionCount) := by
  obtain ⟨result, hdef⟩ : ∃ result, result =
      partitions.mapIdx fun i p => if connected i then p else partitionCount := ⟨_, rfl⟩
  have hresult : ∀ v : Nat, result[v]? =
      partitions[v]?.map fun p => if connected v then p else partitionCount := by
    intro v
    rw [hdef, List.getElem?_mapIdx]
  have hmem := hmarked.mem_iff hfirst hnew hresult
  rw [← hdef]
  constructor
  · rw [hdef, length_mapIdx]
  · intro v x hv hne
    have hmark : connected v = true := by
      apply hmarked.others
      rw [hv]
      exact fun h => hne (some.inj h)
    rw [hresult, hv, map_some, if_pos hmark]
  · intro v hv
    rw [hresult, hv, map_some]
    by_cases hmark : connected v = true
    · exact Or.inl (by rw [if_pos hmark])
    · exact Or.inr (by rw [if_neg hmark])
  · intro v w hv hw
    have hjoined := Found.joined hmem ((hmem v).mp hv)
    exact (hjoined.symm hsymm).trans (Found.joined hmem ((hmem w).mp hw))
  · intro v w hadj hv hw
    have hiff : connected v = true ↔ connected w = true := by
      rw [hmarked.own v hv, hmarked.own w hw]
      exact ⟨Found.adjacent hadj hw, Found.adjacent (hsymm v w hadj) hv⟩
    rw [hresult, hresult, hv, hw, map_some, map_some]
    by_cases hmark : connected v = true
    · rw [if_pos hmark, if_pos (hiff.mp hmark)]
    · rw [if_neg hmark, if_neg fun hmark' => hmark (hiff.mpr hmark')]
  · by_cases hany : ((List.range partitions.length).any fun i => !connected i) = true
    · -- what is not found is in the new partition, and the first LAN is not
      right
      obtain ⟨v, -, hmark⟩ := any_eq_true.mp hany
      have hmark : connected v = false := by simpa using hmark
      have hv : partitions[v]? = some whichPartition := by
        by_contra hother
        rw [hmarked.others v hother] at hmark
        cases hmark
      refine ⟨if_pos hany, mem_of_getElem? ((hmem first).mpr Relation.ReflTransGen.refl), ?_⟩
      refine mem_of_getElem? (i := v) ?_
      rw [hresult, hv, map_some, if_neg (by simp [hmark])]
    · -- all are marked, so that no LAN is numbered anew
      left
      refine ⟨?_, if_neg hany⟩
      apply ext_getElem?
      intro v
      rw [hresult]
      cases hp : partitions[v]? with
      | none => rfl
      | some p =>
        have hlt := (List.getElem?_eq_some_iff.mp hp).1
        have hmark : connected v = true := by
          by_contra hfalse
          exact hany (any_eq_true.mpr ⟨v, mem_range.mpr hlt, by simpa using hfalse⟩)
        rw [map_some, if_pos hmark]

end

theorem makeConnectedPartition_spec (partitions : List Int) (hsymm : graph.Symmetric)
    (hnew : whichPartition ≠ partitionCount) :
    ∃ partitionCount' partitions', makeConnectedPartition whichPartition partitionCount graph partitions =
        some (partitionCount', partitions') ∧
      Split graph whichPartition partitionCount partitions partitionCount' partitions' := by
  cases hfirst : firstOf partitions whichPartition with
  | none =>
    -- there is no LAN in the partition
    have hempty := firstOf_none hfirst
    refine ⟨partitionCount, partitions, by rw [makeConnectedPartition, hfirst], rfl, ?_, ?_, ?_, ?_,
      Or.inl ⟨rfl, rfl⟩⟩
    · exact fun v x hv _ => hv
    · exact fun v hv => absurd hv (hempty v)
    · exact fun v w hv => absurd hv (hempty v)
    · exact fun v w _ hv => absurd hv (hempty v)
  | some first =>
    obtain ⟨connected, hrun, hmarked⟩ := exists_marked hfirst
    exact ⟨_, _, hrun, hmarked.split hsymm (firstOf_some hfirst) hnew⟩

/-! ## Section 3: All partitions -/

/-- What holds when the partitions below `loop` were searched. -/
structure Connected (graph : Graph) (old : List Int) (loop partitionCount : Int)
    (partitions : List Int) : Prop where
  length : partitions.length = old.length
  range : ∀ x ∈ partitions, 0 ≤ x ∧ x < partitionCount
  refines : ∀ v w : Nat, partitions[v]? = partitions[w]? → old[v]? = old[w]?
  connected : ∀ (v w : Nat) (x : Int), partitions[v]? = some x → partitions[w]? = some x → x < loop →
    Joined graph partitions v w
  kept : ∀ v w : Nat, w ∈ graph.adjacents v → old[v]? = old[w]? → partitions[v]? = partitions[w]?

theorem Split.joined (hsplit : Split graph whichPartition partitionCount partitions partitionCount'
    partitions') (hjoined : Joined graph partitions v w) {x : Int} (hv : partitions[v]? = some x)
    (hx : x ≠ whichPartition) : Joined graph partitions' v w := by
  induction hjoined with
  | refl => exact Relation.ReflTransGen.refl
  | @tail u w hjoined hinside ih =>
    have hu : partitions[u]? = some x := (Joined.same hjoined).symm.trans hv
    have hw : partitions[w]? = some x := hinside.2.symm.trans hu
    exact ih.tail ⟨hinside.1, (hsplit.others u x hu hx).trans (hsplit.others w x hw hx).symm⟩

theorem Split.before (hsplit : Split graph whichPartition partitionCount partitions partitionCount'
    partitions') {x : Int} (hv : partitions'[v]? = some x) :
    partitions[v]? = some x ∨ x = partitionCount ∧ partitions[v]? = some whichPartition := by
  have hlt : v < partitions.length := hsplit.length ▸ (List.getElem?_eq_some_iff.mp hv).1
  have hget : partitions[v]? = some partitions[v] := List.getElem?_eq_getElem hlt
  by_cases hown : partitions[v] = whichPartition
  · rw [hown] at hget
    rcases hsplit.own v hget with h | h
    · rw [hv] at h
      cases h
      exact Or.inl hget
    · rw [hv] at h
      cases h
      exact Or.inr ⟨rfl, hget⟩
  · have hother := hsplit.others v _ hget hown
    rw [hv] at hother
    cases hother
    exact Or.inl hget

/-- One turn of the loop: after the split one more partition was searched. -/
theorem Connected.step {old : List Int} {loop : Int}
    (hinv : Connected graph old loop partitionCount partitions) (hloop : loop < partitionCount)
    (hpos : 0 ≤ loop) (hsplit : Split graph loop partitionCount partitions partitionCount' partitions') :
    Connected graph old (loop + 1) partitionCount' partitions' where
  length := hsplit.length.trans hinv.length
  range := by
    intro x hx
    obtain ⟨v, hv⟩ := List.getElem?_of_mem hx
    have hcount : partitionCount ≤ partitionCount' := by
      rcases hsplit.counted with ⟨-, h⟩ | ⟨h, -⟩ <;> omega
    rcases hsplit.before hv with h | ⟨rfl, h⟩
    · have := hinv.range x (mem_of_getElem? h)
      omega
    · -- the new number is only given out when it is counted
      rcases hsplit.counted with ⟨heq, -⟩ | ⟨h, -⟩
      · rw [heq] at hv
        exact absurd (hinv.range _ (mem_of_getElem? hv)).2 (lt_irrefl _)
      · omega
  refines := by
    intro v w heq
    cases hv : partitions'[v]? with
    | none =>
      rw [hv] at heq
      have hnone : ∀ u : Nat, partitions'[u]? = none → old[u]? = none := by
        intro u hu
        rw [List.getElem?_eq_none_iff] at hu ⊢
        rwa [← hinv.length, ← hsplit.length]
      rw [hnone v hv, hnone w heq.symm]
    | some x =>
      have hw : partitions'[w]? = some x := heq.symm.trans hv
      apply hinv.refines
      -- the new number is that of no LAN before, and all that have it now come from `loop`
      have hless : ∀ u : Nat, partitions[u]? ≠ some partitionCount := fun u hu =>
        lt_irrefl _ (hinv.range _ (mem_of_getElem? hu)).2
      rcases hsplit.before hv with h | ⟨rfl, h⟩ <;> rcases hsplit.before hw with h' | ⟨hx, h'⟩
      · rw [h, h']
      · exact absurd (hx ▸ h) (hless v)
      · exact absurd h' (hless w)
      · rw [h, h']
  connected := by
    intro v w x hv hw hx
    by_cases hown : x = loop
    · subst hown
      exact hsplit.connected v w hv hw
    · -- a partition that was searched before, which the split leaves alone
      have hless : x ≠ partitionCount := by omega
      have hv' : partitions[v]? = some x := (hsplit.before hv).resolve_right fun h => hless h.1
      have hw' : partitions[w]? = some x := (hsplit.before hw).resolve_right fun h => hless h.1
      exact hsplit.joined (hinv.connected v w x hv' hw' (by omega)) hv' hown
  kept := by
    intro v w hadj hold
    have heq := hinv.kept v w hadj hold
    cases hv : partitions[v]? with
    | none =>
      have hnone : ∀ u : Nat, partitions[u]? = none → partitions'[u]? = none := by
        intro u hu
        rw [List.getElem?_eq_none_iff] at hu ⊢
        rwa [hsplit.length]
      rw [hnone v hv, hnone w (heq.symm.trans hv)]
    | some x =>
      have hw : partitions[w]? = some x := heq.symm.trans hv
      by_cases hown : x = loop
      · subst hown
        exact hsplit.kept v w hadj hv hw
      · rw [hsplit.others v x hv hown, hsplit.others w x hw hown]

theorem Split.card (hsplit : Split graph whichPartition partitionCount partitions partitionCount'
    partitions') (hrange : ∀ x ∈ partitions, x < partitionCount) :
    partitionCount' + partitions.toFinset.card ≤ partitionCount + partitions'.toFinset.card := by
  rcases hsplit.counted with ⟨rfl, rfl⟩ | ⟨rfl, hown, hnew⟩
  · exact le_refl _
  · have hfresh : partitionCount ∉ partitions.toFinset := fun h =>
      lt_irrefl _ (hrange _ (List.mem_toFinset.mp h))
    have hsub : insert partitionCount partitions.toFinset ⊆ partitions'.toFinset := by
      intro x hx
      rw [List.mem_toFinset]
      rcases Finset.mem_insert.mp hx with rfl | hx
      · exact hnew
      · obtain ⟨v, hv⟩ := List.getElem?_of_mem (List.mem_toFinset.mp hx)
        by_cases hx : x = whichPartition
        · exact hx ▸ hown
        · exact mem_of_getElem? (hsplit.others v x hv hx)
    have hcard := Finset.card_le_card hsub
    rw [Finset.card_insert_of_notMem hfresh] at hcard
    omega

theorem Connected.done {old : List Int} {loop : Int}
    (hinv : Connected graph old loop partitionCount partitions) (hloop : ¬loop < partitionCount) :
    Connected graph old partitionCount partitionCount partitions where
  length := hinv.length
  range := hinv.range
  refines := hinv.refines
  connected v w x hv hw hx := hinv.connected v w x hv hw (by omega)
  kept := hinv.kept

theorem connectFrom_spec {old : List Int} {loop : Int} (bound : Int) (hsymm : graph.Symmetric)
    (hpos : 0 ≤ loop) (hinv : Connected graph old loop partitionCount partitions)
    (hbound : partitionCount ≤ bound + partitions.toFinset.card) (fuel : Nat)
    (hfuel : bound + old.length ≤ loop + fuel) :
    ∃ partitionCount' partitions',
      connectFrom graph fuel loop partitionCount partitions = some (partitionCount', partitions') ∧
      Connected graph old partitionCount' partitionCount' partitions' := by
  -- by `hbound` the count is at most `bound` and the numbers in use, and these are at most as
  -- many as there are LANs
  induction fuel generalizing loop partitionCount partitions with
  | zero =>
    have hcard := toFinset_card_le partitions
    have hlength := hinv.length
    have hdone : ¬loop < partitionCount := by omega
    exact ⟨partitionCount, partitions, by rw [connectFrom, if_neg hdone], hinv.done hdone⟩
  | succ fuel ih =>
    by_cases hloop : loop < partitionCount
    · obtain ⟨count, parts, hpart, hsplit⟩ :=
        makeConnectedPartition_spec partitions hsymm (Int.ne_of_lt hloop)
      have hcard := hsplit.card fun x hx => (hinv.range x hx).2
      obtain ⟨partitionCount', partitions', hrun, hdone⟩ := ih (by omega)
        (hinv.step hloop hpos hsplit) (by omega) (by push_cast at hfuel; omega)
      refine ⟨partitionCount', partitions', ?_, hdone⟩
      rw [connectFrom, if_pos hloop, hpart]
      exact hrun
    · exact ⟨partitionCount, partitions, by rw [connectFrom, if_neg hloop], hinv.done hloop⟩

theorem connectFrom_add {fuel : Nat} {loop : Int} {result : Int × List Int}
    (hrun : connectFrom graph fuel loop partitionCount partitions = some result) (more : Nat) :
    connectFrom graph (fuel + more) loop partitionCount partitions = some result := by
  induction fuel generalizing loop partitionCount partitions with
  | zero =>
    have hdone : ¬loop < partitionCount := by
      intro hloop
      rw [connectFrom, if_pos hloop] at hrun
      cases hrun
    rw [connectFrom, if_neg hdone] at hrun
    cases more with
    | zero => rw [Nat.add_zero, connectFrom, if_neg hdone, hrun]
    | succ more => rw [Nat.zero_add, connectFrom, if_neg hdone, hrun]
  | succ fuel ih =>
    rw [Nat.add_right_comm, connectFrom]
    rw [connectFrom] at hrun
    by_cases hloop : loop < partitionCount
    · rw [if_pos hloop] at hrun ⊢
      obtain ⟨⟨count, parts⟩, hpart, hrest⟩ := bind_eq_some_iff.mp hrun
      exact bind_eq_some_iff.mpr ⟨(count, parts), hpart, ih hrest⟩
    · rw [if_neg hloop] at hrun ⊢
      exact hrun

/-- Before anything is searched. -/
theorem connected_start (hlabels : ∀ x ∈ partitions, 0 ≤ x ∧ x < partitionCount) :
    Connected graph partitions 0 partitionCount partitions where
  length := rfl
  range := hlabels
  refines _ _ h := h
  connected v _ x hv _ hx := absurd (hlabels x (mem_of_getElem? hv)).1 (by omega)
  kept _ _ _ h := h

end

/-- What becomes of the partitions of a graph: LANs of different partitions stay apart, every
    partition is connected, LANs with a way between them within a partition stay together, and
    all numbers are below the count. -/
structure Separates (graph : Graph) (partitions : List Int) (partitionCount' : Int)
    (partitions' : List Int) : Prop where
  length : partitions'.length = partitions.length
  refines : ∀ v w : Nat, partitions[v]? ≠ partitions[w]? → partitions'[v]? ≠ partitions'[w]?
  connected : ∀ v w : Nat, v < partitions.length → partitions'[v]? = partitions'[w]? → Joined graph partitions' v w
  kept : ∀ v w : Nat, Joined graph partitions v w → partitions'[v]? = partitions'[w]?
  below : ∀ x ∈ partitions', 0 ≤ x ∧ x < partitionCount'

/-- Where the partitions are numbered below their count, the loop ends, with partitions that are
    connected. -/
theorem makeConnectedGraph_separates (data : GraphData) (hsymm : (Graph.convert data).Symmetric)
    (partitionCount : Int) (partitions : List Int)
    (hlabels : ∀ x ∈ partitions, 0 ≤ x ∧ x < partitionCount) :
    ∃ partitionCount' partitions', (∀ fuel : Nat, partitionCount + partitions.length ≤ fuel →
        makeConnectedGraph fuel partitionCount (Graph.convert data) partitions =
          some (partitionCount', partitions')) ∧
      Separates (Graph.convert data) partitions partitionCount' partitions' := by
  obtain ⟨least, hleast⟩ : ∃ least : Nat, least = (partitionCount + partitions.length).toNat := ⟨_, rfl⟩
  obtain ⟨partitionCount', partitions', hrun, hdone⟩ := connectFrom_spec partitionCount hsymm
    (le_refl 0) (connected_start hlabels) (by omega) least (by omega)
  refine ⟨partitionCount', partitions', ?_, hdone.length, ?_, ?_, ?_, hdone.range⟩
  · intro fuel hfuel
    have hadd := connectFrom_add hrun (fuel - least)
    rwa [Nat.add_sub_cancel' (by omega)] at hadd
  · intro v w hne heq
    exact hne (hdone.refines v w heq)
  · intro v w hv heq
    have hlt : v < partitions'.length := hdone.length.symm ▸ hv
    have hget : partitions'[v]? = some partitions'[v] := List.getElem?_eq_getElem hlt
    exact hdone.connected v w _ hget (heq.symm.trans hget) (hdone.range _ (mem_of_getElem? hget)).2
  · intro v w hjoined
    induction hjoined with
    | refl => rfl
    | tail _ hinside ih => exact ih.trans (hdone.kept _ _ hinside.1 hinside.2)

/-- Three LANs of one partition, the first two with a host in common. -/
theorem makeConnectedGraph_separates_three : ∃ partitionCount' partitions',
    (∀ fuel : Nat, (1 : Int) + ([0, 0, 0] : List Int).length ≤ fuel →
      makeConnectedGraph fuel 1 (Graph.convert ⟨[(⟨0, 1⟩, [0]), (⟨1, 1⟩, [0]), (⟨2, 1⟩, [1])],
        fun host => if host = 0 then [⟨0, 1⟩, ⟨1, 1⟩] else [⟨2, 1⟩]⟩) [0, 0, 0] =
          some (partitionCount', partitions')) ∧
    Separates (Graph.convert ⟨[(⟨0, 1⟩, [0]), (⟨1, 1⟩, [0]), (⟨2, 1⟩, [1])],
      fun host => if host = 0 then [⟨0, 1⟩, ⟨1, 1⟩] else [⟨2, 1⟩]⟩) [0, 0, 0] partitionCount' partitions' :=
  makeConnectedGraph_separates _ (Graph.symmetric_iff.mpr (by decide)) 1 [0, 0, 0] (by decide)

/-- With a count of no partitions nothing is searched: the two LANs have no host in common, are
    in partition 0 before and after, and that is not below the count. -/
theorem count_zero_searches_nothing : (∀ fuel, makeConnectedGraph fuel 0
      (Graph.convert ⟨[(⟨0, 1⟩, [0]), (⟨1, 1⟩, [1])], fun host => [⟨host, 1⟩]⟩) [0, 0] = some (0, [0, 0])) ∧
    (Graph.convert ⟨[(⟨0, 1⟩, [0]), (⟨1, 1⟩, [1])], fun host => [⟨host, 1⟩]⟩).Symmetric ∧
    ¬Joined (Graph.convert ⟨[(⟨0, 1⟩, [0]), (⟨1, 1⟩, [1])], fun host => [⟨host, 1⟩]⟩) [0, 0] 0 1 ∧
    ¬∀ x ∈ ([0, 0] : List Int), x < 0 := by
  refine ⟨?_, Graph.symmetric_iff.mpr (by decide), ?_, by decide⟩
  · intro fuel
    cases fuel <;> rfl
  · intro hjoined
    rcases Relation.ReflTransGen.cases_head hjoined with heq | ⟨v, hinside, -⟩
    · cases heq
    · have hnone : (Graph.convert ⟨[(⟨0, 1⟩, [0]), (⟨1, 1⟩, [1])],
          fun host => [⟨host, 1⟩]⟩).adjacents 0 = [] := by decide
      have hmem := hinside.1
      rw [hnone] at hmem
      cases hmem

end Emulab.Ipassign
