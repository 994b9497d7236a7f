import Emulab.Assign.Features

/-! # The iterator over two sets

  `tb_featuredesire_set_iterator` goes through the desires of a vnode and the
  features of a pnode, or through the features of two pnodes. Both lists are
  sorted. They are meant as sets; a name that is in a list twice is come to
  twice.
-/

namespace Emulab.Assign

open List

variable {R : Type}

/-! ## Section 1: The iterator -/

/-- `tb_featuredesire_set_iterator`. -/
structure SetIterator (R : Type) where
  it1 : List (NodeFd R)
  it2 : List (NodeFd R × Nat)
  /-- `current` with `current_membership`, nothing at the end of both lists. -/
  current : Option (Membership R)

/-- The next element of the set: the smaller one, or one of both lists. -/
def nextElement : List (NodeFd R) → List (NodeFd R × Nat) → Option (Membership R)
  | [], [] => none
  | d :: _, [] => some (.firstOnly d)
  | [], (f, i) :: _ => some (.secondOnly f i)
  | d :: _, (f, i) :: _ =>
    if d.fd < f.fd then some (.firstOnly d)
    else if f.fd < d.fd then some (.secondOnly f i)
    else some (.both d f i)

/-- The constructor. -/
def SetIterator.new (ds : List (NodeFd R)) (fs : List (NodeFd R × Nat)) : SetIterator R :=
  ⟨ds, fs, nextElement ds fs⟩

def SetIterator.done (it : SetIterator R) : Bool := it.it1.isEmpty && it.it2.isEmpty

/-- `operator++`. The assertion is that the iterator is not done. -/
def SetIterator.next (it : SetIterator R) : Option (SetIterator R) :=
  match it.it1, it.it2 with
  | [], [] => none
  | _ :: ds, [] => some (.new ds [])
  | [], _ :: fs => some (.new [] fs)
  | d :: ds, (f, i) :: fs =>
    if d.fd < f.fd then some (.new ds ((f, i) :: fs))
    else if f.fd < d.fd then some (.new (d :: ds) fs)
    else some (.new ds fs)

/-- `for (;!fdit.done();fdit++)`, with at most so many turns. -/
def SetIterator.visits : Nat → SetIterator R → List (Membership R)
  | 0, _ => []
  | n + 1, it =>
    if it.done then []
    else
      it.current.toList ++ match it.next with
        | some it => visits n it
        | none => []

theorem visits_new (n : Nat) (ds : List (NodeFd R)) (fs : List (NodeFd R × Nat)) :
    (SetIterator.new ds fs).visits n = memberships n ds fs := by
  induction n generalizing ds fs with
  | zero =>
    unfold SetIterator.visits memberships
    rfl
  | succ n ih =>
    cases ds with
    | nil =>
      cases fs with
      | nil => rfl
      | cons f fs =>
        show Membership.secondOnly f.1 f.2 :: (SetIterator.new [] fs).visits n = _
        rw [ih]
        rfl
    | cons d ds =>
      cases fs with
      | nil =>
        show Membership.firstOnly d :: (SetIterator.new ds []).visits n = _
        rw [ih]
        rfl
      | cons f fs =>
        unfold SetIterator.visits memberships
        simp only [SetIterator.new, SetIterator.done, SetIterator.next, nextElement,
          isEmpty_cons, Bool.and_self, Bool.false_eq_true, if_false]
        split_ifs
        · exact congrArg _ (ih ds (f :: fs))
        · exact congrArg _ (ih (d :: ds) fs)
        · exact congrArg _ (ih ds fs)

/-! ## Section 2: What is come to -/

def Membership.name : Membership R → Nat
  | .firstOnly d => d.fd
  | .secondOnly f _ => f.fd
  | .both d _ _ => d.fd

def Membership.inFirst : Membership R → Bool
  | .firstOnly _ => true
  | .secondOnly _ _ => false
  | .both _ _ _ => true

def Membership.inSecond : Membership R → Bool
  | .firstOnly _ => false
  | .secondOnly _ _ => true
  | .both _ _ _ => true

attribute [simp] Membership.name Membership.inFirst Membership.inSecond

abbrev names (l : List (NodeFd R)) : List Nat := l.map NodeFd.fd

theorem names_cons (d : NodeFd R) (l : List (NodeFd R)) : names (d :: l) = d.fd :: names l := rfl

/-- Lists are sorted when they have been read. -/
def SortedFds (l : List (NodeFd R)) : Prop := (names l).Pairwise (· ≤ ·)

variable {fs : List (NodeFd R × Nat)} {ds : List (NodeFd R)}

/-- The iterator takes the smaller of the two elements that are next, or both. -/
theorem memberships_induct
    {P : List (NodeFd R) → List (NodeFd R × Nat) → List (Membership R) → Prop} (nil : P [] [] [])
    (first : ∀ d ds fs ms, (∀ f ∈ fs.head?, d.fd < f.1.fd) → P ds fs ms →
      P (d :: ds) fs (.firstOnly d :: ms)) (second : ∀ f i ds fs ms, (∀ d ∈ ds.head?, f.fd < d.fd) → P ds fs ms →
      P ds ((f, i) :: fs) (.secondOnly f i :: ms)) (both : ∀ d f i ds fs ms, d.fd = f.fd → P ds fs ms →
      P (d :: ds) ((f, i) :: fs) (.both d f i :: ms))
    {n : Nat} (hn : ds.length + fs.length ≤ n) : P ds fs (memberships n ds fs) := by
  fun_induction memberships n ds fs with
  | case1 ds fs =>
    have hds : ds = [] := length_eq_zero_iff.mp (by omega)
    have hfs : fs = [] := length_eq_zero_iff.mp (by omega)
    rwa [hds, hfs]
  | case2 => exact nil
  | case3 n d ds ih => exact first d ds [] _ nofun (ih (by simpa using hn))
  | case4 n f i fs ih => exact second f i [] fs _ nofun (ih (by simpa using hn))
  | case5 n d ds f i fs hlt ih =>
    refine first d ds _ _ (by simpa using hlt) (ih ?_)
    simp only [length_cons] at hn ⊢
    omega
  | case6 n d ds f i fs hnlt hlt ih =>
    refine second f i _ fs _ (by simpa using hlt) (ih ?_)
    simp only [length_cons] at hn ⊢
    omega
  | case7 n d ds f i fs hnlt hnlt' ih =>
    refine both d f i ds fs _ (by omega) (ih ?_)
    simp only [length_cons] at hn
    omega

/-- The iterator comes to the elements of the lists. -/
theorem mem_memberships {n : Nat} {m : Membership R} (hn : ds.length + fs.length ≤ n)
    (hm : m ∈ memberships n ds fs) :
    (∀ d, m = .firstOnly d → d ∈ ds) ∧ (∀ f i, m = .secondOnly f i → (f, i) ∈ fs) ∧
      ∀ d f i, m = .both d f i → d ∈ ds ∧ (f, i) ∈ fs ∧ d.fd = f.fd := by
  revert hm
  refine memberships_induct (P := fun ds fs ms => m ∈ ms → (∀ d, m = .firstOnly d → d ∈ ds) ∧
    (∀ f i, m = .secondOnly f i → (f, i) ∈ fs) ∧
      ∀ d f i, m = .both d f i → d ∈ ds ∧ (f, i) ∈ fs ∧ d.fd = f.fd) nofun ?_ ?_ ?_ hn
  · intro d ds fs ms _ ih hm
    rcases mem_cons.mp hm with rfl | hm
    · simp
    · have := ih hm
      grind
  · intro f i ds fs ms _ ih hm
    rcases mem_cons.mp hm with rfl | hm
    · simp
    · have := ih hm
      grind
  · intro d f i ds fs ms heq ih hm
    rcases mem_cons.mp hm with rfl | hm
    · simp [heq]
    · have := ih hm
      grind

/-- It comes to every element of the first list, -/
theorem countP_inFirst (k : Nat) {n : Nat} (hn : ds.length + fs.length ≤ n) :
    (memberships n ds fs).countP (fun m => m.name = k ∧ m.inFirst) = (names ds).count k := by
  refine memberships_induct (P := fun ds _ ms =>
    ms.countP (fun m => m.name = k ∧ m.inFirst) = (names ds).count k) rfl ?_ ?_ ?_ hn
  · intro d ds fs ms _ ih
    rw [countP_cons, ih, names_cons, count_cons]
    simp
  · intro f i ds fs ms _ ih
    rw [countP_cons, ih]
    simp
  · intro d f i ds fs ms _ ih
    rw [countP_cons, ih, names_cons, count_cons]
    simp

theorem countP_inSecond (k : Nat) {n : Nat} (hn : ds.length + fs.length ≤ n) :
    (memberships n ds fs).countP (fun m => m.name = k ∧ m.inSecond) = (names (fs.map Prod.fst)).count k := by
  refine memberships_induct (P := fun _ fs ms => ms.countP (fun m => m.name = k ∧ m.inSecond) =
    (names (fs.map Prod.fst)).count k) rfl ?_ ?_ ?_ hn
  · intro d ds fs ms _ ih
    rw [countP_cons, ih]
    simp
  · intro f i ds fs ms _ ih
    rw [countP_cons, ih, map_cons, names_cons, count_cons]
    simp
  · intro d f i ds fs ms heq ih
    rw [countP_cons, ih, map_cons, names_cons, count_cons]
    simp [heq]

theorem SortedFds.absent {l : List (NodeFd R)} (hl : SortedFds l) {j : Nat}
    (hhead : ∀ f ∈ l.head?, j < f.fd) : (names l).count j = 0 := by
  apply count_eq_zero.mpr
  intro hmem
  cases l with
  | nil => cases hmem
  | cons f l =>
    have hlt : j < f.fd := hhead f rfl
    rcases mem_cons.mp hmem with heq | hmem
    · omega
    · have := (pairwise_cons.mp hl).1 j hmem
      omega

/-- Where both lists are sorted, elements of one name are come to together. -/
theorem count_memberships (k : Nat) {n : Nat}
    (hn : ds.length + fs.length ≤ n) (hds : SortedFds ds) (hfs : SortedFds (fs.map Prod.fst)) :
    ((memberships n ds fs).map Membership.name).count k =
      max ((names ds).count k) ((names (fs.map Prod.fst)).count k) := by
  revert hds hfs
  refine memberships_induct (P := fun ds fs ms => SortedFds ds → SortedFds (fs.map Prod.fst) →
    (ms.map Membership.name).count k =
      max ((names ds).count k) ((names (fs.map Prod.fst)).count k)) (fun _ _ => rfl) ?_ ?_ ?_ hn
  · intro d ds fs ms hlt ih hds hfs
    have hno := hfs.absent (j := d.fd) (by simpa using hlt)
    rw [map_cons, count_cons, ih (pairwise_cons.mp hds).2 hfs, names_cons, count_cons, Membership.name]
    by_cases hk : d.fd = k
    · -- the second list has only greater names
      rw [hk] at hno
      rw [hno]
      omega
    · have hne : (d.fd == k) = false := by simpa using hk
      rw [hne]
      simp
  · intro f i ds fs ms hlt ih hds hfs
    have hno := hds.absent hlt
    rw [map_cons, count_cons, ih hds (pairwise_cons.mp hfs).2, map_cons, names_cons f, count_cons, Membership.name]
    by_cases hk : f.fd = k
    · rw [hk] at hno
      rw [hno]
      omega
    · have hne : (f.fd == k) = false := by simpa using hk
      rw [hne]
      simp
  · intro d f i ds fs ms heq ih hds hfs
    rw [map_cons, count_cons, ih (pairwise_cons.mp hds).2 (pairwise_cons.mp hfs).2,
      map_cons, names_cons, names_cons, count_cons, count_cons, Membership.name, heq]
    dsimp only
    omega

def Membership.ofFirst : Membership R → Option (NodeFd R)
  | .firstOnly d => some d
  | .secondOnly _ _ => none
  | .both d _ _ => some d

def Membership.ofSecond : Membership R → Option (NodeFd R × Nat)
  | .firstOnly _ => none
  | .secondOnly f i => some (f, i)
  | .both _ f i => some (f, i)

/-- **The loop merges the lists.** It comes to the elements of each list in their order, and over sorted lists
    to those of one name together. -/
theorem visits_merge (ds : List (NodeFd R)) (fs : List (NodeFd R × Nat)) (n : Nat) :
    let visits := (SetIterator.new ds fs).visits (ds.length + fs.length + n)
    visits.filterMap Membership.ofFirst = ds ∧ visits.filterMap Membership.ofSecond = fs ∧
      (SortedFds ds → SortedFds (fs.map Prod.fst) → ∀ k, (visits.map Membership.name).count k =
        max ((names ds).count k) ((names (fs.map Prod.fst)).count k)) := by
  have hn : ds.length + fs.length ≤ ds.length + fs.length + n := Nat.le_add_right _ _
  dsimp only
  rw [visits_new]
  refine ⟨?_, ?_, fun hds hfs k => count_memberships k hn hds hfs⟩
  · refine memberships_induct (P := fun ds _ ms => ms.filterMap Membership.ofFirst = ds) rfl ?_ ?_ ?_ hn
    · exact fun d _ _ _ _ ih => congrArg (d :: ·) ih
    · exact fun _ _ _ _ _ _ ih => ih
    · exact fun d _ _ _ _ _ _ ih => congrArg (d :: ·) ih
  · refine memberships_induct (P := fun _ fs ms => ms.filterMap Membership.ofSecond = fs) rfl ?_ ?_ ?_ hn
    · exact fun _ _ _ _ _ ih => ih
    · exact fun f i _ _ _ _ ih => congrArg ((f, i) :: ·) ih
    · exact fun _ f i _ _ _ _ ih => congrArg ((f, i) :: ·) ih

/-! ## Section 3: Sets -/

/-- The iterator comes to every name of the union once, and knows which lists it is in. -/
structure VisitsUnion (ds fs : List (NodeFd R)) : Prop where
  once : ∀ k, ((featureDesireSet ds fs).map Membership.name).count k =
    if k ∈ names ds ∨ k ∈ names fs then 1 else 0
  inFirst : ∀ m ∈ featureDesireSet ds fs, (m.inFirst = true ↔ m.name ∈ names ds)
  inSecond : ∀ m ∈ featureDesireSet ds fs, (m.inSecond = true ↔ m.name ∈ names fs)

/-- What holds of all elements of one name holds of the only one. -/
theorem countP_pos_of_unique {α : Type} {l : List α} {p : α → Bool} {a : α} (q : α → Bool)
    (ha : a ∈ l) (hpa : p a = true) (hone : l.countP p = 1) : 0 < l.countP (fun b => p b && q b) ↔ q a = true := by
  obtain ⟨b, hb⟩ := length_eq_one_iff.mp ((countP_eq_length_filter).symm.trans hone)
  have hab : a ∈ l.filter p := mem_filter.mpr ⟨ha, hpa⟩
  rw [hb, mem_singleton] at hab
  have hfilter : l.filter (fun b => p b && q b) = (l.filter p).filter q := by
    rw [filter_filter]
    congr 1
    funext c
    exact Bool.and_comm _ _
  rw [countP_eq_length_filter, hfilter, hb, ← hab]
  by_cases hq : q a = true
  · simp [hq]
  · simp [hq]

/-- Over sorted lists, this is so exactly if no name is in a list twice. -/
theorem visitsUnion_iff {ds fs : List (NodeFd R)} (hds : SortedFds ds) (hfs : SortedFds fs) :
    VisitsUnion ds fs ↔ (names ds).Nodup ∧ (names fs).Nodup := by
  have hfst : fs.zipIdx.map Prod.fst = fs := zipIdx_map_fst 0 fs
  have hlength : ds.length + fs.zipIdx.length ≤ ds.length + fs.length := by
    rw [length_zipIdx]
  have hcount (k : Nat) : ((featureDesireSet ds fs).map Membership.name).count k =
      max ((names ds).count k) ((names fs).count k) := by
    have := count_memberships k hlength hds (by rw [hfst]; exact hfs)
    rwa [hfst] at this
  have hpos (k : Nat) (l : List (NodeFd R)) : k ∈ names l ↔ 0 < (names l).count k := count_pos_iff.symm
  constructor
  · intro h
    have hle (k : Nat) : max ((names ds).count k) ((names fs).count k) ≤ 1 := by
      rw [← hcount, h.once]
      split <;> omega
    constructor
    · exact nodup_iff_count_le_one.mpr fun k => (le_max_left _ _).trans (hle k)
    · exact nodup_iff_count_le_one.mpr fun k => (le_max_right _ _).trans (hle k)
  · intro h
    obtain ⟨hds', hfs'⟩ := h
    have hone (k : Nat) : ((featureDesireSet ds fs).map Membership.name).count k =
        if k ∈ names ds ∨ k ∈ names fs then 1 else 0 := by
      have := nodup_iff_count_le_one.mp hds' k
      have := nodup_iff_count_le_one.mp hfs' k
      rw [hcount]
      simp only [hpos]
      split <;> omega
    have hunique (m : Membership R) (hm : m ∈ featureDesireSet ds fs) :
        (featureDesireSet ds fs).countP (fun m' => decide (m'.name = m.name)) = 1 := by
      have hmem : m.name ∈ (featureDesireSet ds fs).map Membership.name := mem_map_of_mem hm
      have hpos' := count_pos_iff.mpr hmem
      have hle := hone m.name
      have heq : (featureDesireSet ds fs).countP (fun m' => decide (m'.name = m.name)) =
          ((featureDesireSet ds fs).map Membership.name).count m.name := by
        rw [List.count, countP_map]
        rfl
      rw [heq]
      split at hle <;> omega
    refine ⟨hone, fun m hm => ?_, fun m hm => ?_⟩
    · have hin := countP_pos_of_unique Membership.inFirst hm (decide_eq_true rfl) (hunique m hm)
      have hall := countP_inFirst m.name hlength
      simp only [Bool.decide_and, Bool.decide_eq_true] at hall
      rw [hpos, ← hall]
      exact hin.symm
    · have hin := countP_pos_of_unique Membership.inSecond hm (decide_eq_true rfl) (hunique m hm)
      have hall := countP_inSecond m.name hlength
      simp only [Bool.decide_and, Bool.decide_eq_true, hfst] at hall
      rw [hpos, ← hall]
      exact hin.symm

end Emulab.Assign
