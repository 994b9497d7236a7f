import Emulab.Assign.FeatureSet
import Emulab.Lib.Classify

/-! # Generating the physical equivalence classes

  Before annealing the pnodes are sorted into pclasses. A pnode is compared
  with one canonical member of each pclass there is, in the order in which a
  hash map of pointers happens to be iterated over. With `-p` every pnode gets
  a pclass of its own. Dynamic pclasses come in addition: one for each pnode
  that several vnodes can be mapped to, disabled until one is.
-/

namespace Emulab.Assign

open Classify Function List Option

variable {R : Type}

/-! ## Section 1: The graph -/

/-- What `generate_pclasses` is given. -/
structure PclassGraph (R : Type) where
  pg : PGraph R
  vertices : List PVertex
  vertices_nodup : vertices.Nodup
  /-- There is some reason that assign is not aware of that the node is unique. -/
  unique : PVertex → Bool
  hasSubnode : PVertex → Bool

/-! ## Section 2: Equivalence -/

/-- A loop over the types of one pnode that looks them up in the other. -/
def typesMatch (a b : Pnode R) : Bool :=
  a.types.all fun t =>
    match b.findType t.1 with
    | none => false
    | some record => decide (record = t.2)

/-- `both_equiv` of an element that is in both sets. -/
def Membership.equivalent [BEq R] : Membership R → Bool
  | .both d f _ => d.weight == f.weight && d.violateable == f.violateable
  | .firstOnly _ => false
  | .secondOnly _ _ => false

/-- `tb_plink::is_equiv`. The types are hash sets. -/
def Plink.isEquiv (l m : Plink) : Bool :=
  if ¬ (l.types ⊆ m.types ∧ m.types ⊆ l.types) then false
  else if l.bandwidth ≠ m.bandwidth then false
  else true

/-- The links of a node with their other ends. The code compares a vertex with a pnode to see if an end is
    the node itself, which it never is, but the target of an out edge is the other end anyway. -/
def PGraph.linkEnds (pg : PGraph R) (p : PVertex) : List (PVertex × PEdge) :=
  (pg.outEdges p).map fun e => (pg.otherEnd p e, e)

/-- Two links go to the same node and are equivalent. -/
def PGraph.sameLink (pg : PGraph R) (x y : PVertex × PEdge) : Prop :=
  x.1 = y.1 ∧ (pg.plink x.2).isEquiv (pg.plink y.2) = true

instance (pg : PGraph R) : DecidableRel pg.sameLink := fun _ _ => instDecidableAnd

/-- `pclass_equiv`. After a link has been erased the iterator to it is compared
    with the end of the list; it is taken to be different. -/
def pclassEquiv [BEq R] (g : PclassGraph R) (a b : PVertex) : Bool :=
  if g.unique a || g.unique b then false
  else if !typesMatch (g.pg.pnode a) (g.pg.pnode b) then false
  -- in both directions, or b might have a type that a does not
  else if !typesMatch (g.pg.pnode b) (g.pg.pnode a) then false
  else if (g.pg.pnode a).subnodeOf ≠ (g.pg.pnode b).subnodeOf then false
  else if g.hasSubnode a || g.hasSubnode b then false
  else if !(featureDesireSet (g.pg.pnode a).features (g.pg.pnode b).features).all Membership.equivalent then false
  else matchAll g.pg.sameLink (g.pg.linkEnds a) (g.pg.linkEnds b)

/-! ## Section 3: Generation -/

/-- `tb_pclass`, with what is known of it only here. -/
structure NewPclass extends Pclass where
  name : String
  size : Nat
  isDynamic : Bool

/-- `new tb_pclass`. -/
def NewPclass.empty (name : String) : NewPclass where
  usedMembers := 0
  disabled := false
  members := []
  name := name
  size := 0
  isDynamic := false

/-- `members[type]->push_back(p)`, with a new list if there is none. The map is
    ordered by the addresses of strings. -/
def pushMember (pv : PVertex) (members : List (String × List PVertex)) (type : String) :
    List (String × List PVertex) :=
  if members.any (·.1 = type) then
    members.map fun m => if m.1 = type then (m.1, m.2 ++ [pv]) else m
  else
    members ++ [(type, [pv])]

/-- `add_member`, on the side of the pclass. -/
def NewPclass.addMember (p : Pnode R) (pv : PVertex) (c : NewPclass) : NewPclass :=
  { c with
    members := (p.types.map Prod.fst).foldl (pushMember pv) c.members
    size := c.size + 1 }

/-- The pclasses, the canonical members and what pclasses the pnodes are in. -/
structure Generation where
  pclasses : List NewPclass
  canonicalMembers : List (Nat × PVertex)
  myClass : PVertex → Option Nat
  myOwnClass : PVertex → Option Nat

def Generation.initial : Generation := ⟨[], [], fun _ => none, fun _ => none⟩

/-- Found the right class. -/
def Generation.join (g : PclassGraph R) (pv : PVertex) (c : Nat) (s : Generation) : Generation :=
  { s with
    pclasses := s.pclasses.modify c (NewPclass.addMember (g.pg.pnode pv) pv)
    myClass := update s.myClass pv (some c) }

def Generation.newClass (g : PclassGraph R) (pv : PVertex) (s : Generation) : Generation :=
  { s with
    pclasses := s.pclasses ++ [(NewPclass.empty (g.pg.pnode pv).name).addMember (g.pg.pnode pv) pv]
    canonicalMembers := s.canonicalMembers ++ [(s.pclasses.length, pv)]
    myClass := update s.myClass pv (some s.pclasses.length) }

def findClass [BEq R] (g : PclassGraph R) (o : IterationOrder (Nat × PVertex)) (pv : PVertex)
    (s : Generation) : Option Nat :=
  ((o.order s.canonicalMembers).find? fun e => pclassEquiv g pv e.2).map Prod.fst

/-- One turn of the loop over the pnodes. -/
def classifyPnode [BEq R] (g : PclassGraph R) (pclassForEachPnode : Bool)
    (o : IterationOrder (Nat × PVertex)) (s : Generation) (pv : PVertex) : Generation :=
  match if pclassForEachPnode then none else findClass g o pv s with
  | some c => s.join g pv c
  | none => s.newClass g pv

/-- One turn of the loop that makes dynamic pclasses. -/
def ownClass (g : PclassGraph R) (s : Generation) (pv : PVertex) : Except Fault Generation :=
  match (s.myClass pv).bind fun c => s.pclasses[c]? with
  | none => .error .nullPointer
  | some c =>
    -- no point if it is in a pclass of size one, or can only have a single vnode
    if c.size = 1 then .ok s
    else if !(g.pg.pnode pv).types.any (fun t => 1 < t.2.maxLoad) then .ok s
    else
      let n := (NewPclass.empty ((g.pg.pnode pv).name ++ "-own")).addMember (g.pg.pnode pv) pv
      .ok { s with
        pclasses := s.pclasses ++ [{ n with disabled := true, isDynamic := true }]
        myOwnClass := update s.myOwnClass pv (some s.pclasses.length) }

/-- `generate_pclasses`. The pnodes are visited in the order of the graph, or shuffled. -/
def generatePclasses [BEq R] (g : PclassGraph R) (pclassForEachPnode dynamicPclasses : Bool)
    (pvertexes : List PVertex) (o : IterationOrder (Nat × PVertex)) : Except Fault Generation :=
  let s := pvertexes.foldl (classifyPnode g pclassForEachPnode o) .initial
  if dynamicPclasses then g.vertices.foldlM (ownClass g) s else .ok s

/-- `type_table`: what pclasses satisfy a type. -/
def Generation.typeTable (s : Generation) (type : String) : List Nat :=
  (s.pclasses.zipIdx.filter fun c => c.1.members.any (·.1 = type)).map Prod.snd

/-- The pnode has been added to the pclass. -/
def Generation.Placed (s : Generation) (a : PVertex) (c : Nat) : Prop :=
  s.myClass a = some c ∨ s.myOwnClass a = some c

/-- Two pnodes have been added to one pclass. -/
def Generation.Together (s : Generation) (a b : PVertex) : Prop :=
  ∃ c, s.Placed a c ∧ s.Placed b c

/-! ## Section 4: What is compared -/

theorem typesMatch_iff {a b : Pnode R} : typesMatch a b = true ↔ ∀ t ∈ a.types, b.findType t.1 = some t.2 := by
  unfold typesMatch
  rw [List.all_eq_true]
  refine forall₂_congr fun t _ => ?_
  cases b.findType t.1 <;> simp

theorem mem_types_of_findType {a : Pnode R} {type : String} {record : TypeRecord}
    (h : a.findType type = some record) : (type, record) ∈ a.types := by
  unfold Pnode.findType at h
  obtain ⟨l₁, l₂, heq, -⟩ := lookup_eq_some_iff.mp h
  rw [heq]
  simp

theorem typesMatch_trans {a b c : Pnode R} (hab : typesMatch a b = true)
    (hbc : typesMatch b c = true) : typesMatch a c = true := by
  rw [typesMatch_iff] at *
  intro t ht
  exact hbc _ (mem_types_of_findType (hab t ht))

@[simp] theorem isEquiv_iff {l m : Plink} :
    l.isEquiv m = true ↔ (l.types ⊆ m.types ∧ m.types ⊆ l.types) ∧ l.bandwidth = m.bandwidth := by
  unfold Plink.isEquiv
  by_cases htypes : l.types ⊆ m.types ∧ m.types ⊆ l.types
  · simp [htypes]
  · simp [htypes]

theorem sameLink_symm (pg : PGraph R) : ∀ x y, pg.sameLink x y → pg.sameLink y x := by
  intro x y ⟨hend, hequiv⟩
  rw [isEquiv_iff] at hequiv
  exact ⟨hend.symm, isEquiv_iff.mpr ⟨hequiv.1.symm, hequiv.2.symm⟩⟩

theorem sameLink_trans (pg : PGraph R) : ∀ x y z, pg.sameLink x y → pg.sameLink y z → pg.sameLink x z := by
  intro x y z ⟨hend, hxy⟩ ⟨hend', hyz⟩
  rw [isEquiv_iff] at hxy hyz
  refine ⟨hend.trans hend', isEquiv_iff.mpr ⟨⟨?_, ?_⟩, hxy.2.trans hyz.2⟩⟩
  · exact List.Subset.trans hxy.1.1 hyz.1.1
  · exact List.Subset.trans hyz.1.2 hxy.1.2

section Features

variable [BEq R]

/-- `equivalent`, of two features. -/
def NodeFd.Equivalent (d f : NodeFd R) : Prop :=
  d.fd = f.fd ∧ (d.weight == f.weight) = true ∧ d.violateable = f.violateable

/-- The iterator sees nothing that differs if the lists are the same, element for element. -/
theorem memberships_equivalent {n : Nat} {ds : List (NodeFd R)} {fs : List (NodeFd R × Nat)}
    (hn : ds.length + fs.length ≤ n) :
    (memberships n ds fs).all Membership.equivalent = true ↔
      List.Forall₂ NodeFd.Equivalent ds (fs.map Prod.fst) := by
  refine memberships_induct (P := fun ds fs ms => ms.all Membership.equivalent = true ↔
    List.Forall₂ NodeFd.Equivalent ds (fs.map Prod.fst)) (by simp) ?_ ?_ ?_ hn
  · intro d ds fs ms hlt _
    cases fs with
    | nil => simp [Membership.equivalent]
    | cons f fs =>
      have hne : d.fd ≠ f.1.fd := by simpa using (hlt f rfl).ne
      simp [Membership.equivalent, NodeFd.Equivalent, hne]
  · intro f i ds fs ms hlt _
    cases ds with
    | nil => simp [Membership.equivalent]
    | cons d ds =>
      have hne : d.fd ≠ f.fd := (hlt d rfl).ne'
      simp [Membership.equivalent, NodeFd.Equivalent, hne]
  · intro d f i ds fs ms heq ih
    rw [all_cons, Bool.and_eq_true, ih]
    simp [Membership.equivalent, NodeFd.Equivalent, heq]

theorem featureDesireSet_equivalent (ds fs : List (NodeFd R)) :
    (featureDesireSet ds fs).all Membership.equivalent = true ↔ List.Forall₂ NodeFd.Equivalent ds fs := by
  have hlength : ds.length + fs.zipIdx.length ≤ ds.length + fs.length := by
    rw [length_zipIdx]
  have h := memberships_equivalent hlength
  rw [zipIdx_map_fst] at h
  exact h

/-- What `pclass_equiv` decides: the type and feature information match, and there
    is a one-to-one mapping between links that preserves bandwidth and destination. -/
structure PclassEquiv (g : PclassGraph R) (a b : PVertex) : Prop where
  notUnique : g.unique a = false ∧ g.unique b = false
  types : typesMatch (g.pg.pnode a) (g.pg.pnode b) = true ∧ typesMatch (g.pg.pnode b) (g.pg.pnode a) = true
  subnodeOf : (g.pg.pnode a).subnodeOf = (g.pg.pnode b).subnodeOf
  noSubnode : g.hasSubnode a = false ∧ g.hasSubnode b = false
  features : List.Forall₂ NodeFd.Equivalent (g.pg.pnode a).features (g.pg.pnode b).features
  links : Matches g.pg.sameLink (g.pg.linkEnds a) (g.pg.linkEnds b)

theorem pclassEquiv_iff (g : PclassGraph R) (a b : PVertex) : pclassEquiv g a b = true ↔ PclassEquiv g a b := by
  have hlinks := matchAll_iff (sameLink_symm g.pg) (sameLink_trans g.pg) (g.pg.linkEnds a) (g.pg.linkEnds b)
  have hfeatures := featureDesireSet_equivalent (g.pg.pnode a).features (g.pg.pnode b).features
  unfold pclassEquiv
  constructor
  · intro h
    split_ifs at h with hunique htypes htypes' hsubnode hhas hfd
    constructor
    · simpa using hunique
    · simp only [Bool.not_eq_true, Bool.not_eq_false'] at htypes htypes'
      exact ⟨htypes, htypes'⟩
    · exact not_not.mp hsubnode
    · simpa using hhas
    · exact hfeatures.mp (by simpa using hfd)
    · exact hlinks.mp h
  · intro h
    rw [if_neg (by simp [h.notUnique]), if_neg (by simp [h.types.1]), if_neg (by simp [h.types.2]),
      if_neg (by simp [h.subnodeOf]), if_neg (by simp [h.noSubnode]),
      if_neg (by simp [hfeatures.mpr h.features])]
    exact hlinks.mpr h.links

variable [PartialEquivBEq R]

theorem pclassEquiv_symm (g : PclassGraph R) (a b : PVertex) (h : pclassEquiv g a b = true) :
    pclassEquiv g b a = true := by
  rw [pclassEquiv_iff] at *
  have hflip : List.Forall₂ (flip NodeFd.Equivalent) (g.pg.pnode b).features
    (g.pg.pnode a).features := h.features.flip
  constructor
  · exact h.notUnique.symm
  · exact h.types.symm
  · exact h.subnodeOf.symm
  · exact h.noSubnode.symm
  · exact hflip.imp fun d f hdf => ⟨hdf.1.symm, PartialEquivBEq.symm hdf.2.1, hdf.2.2.symm⟩
  · exact h.links.symm (sameLink_symm g.pg)

theorem pclassEquiv_trans (g : PclassGraph R) (a b c : PVertex) (hab : pclassEquiv g a b = true)
    (hbc : pclassEquiv g b c = true) : pclassEquiv g a c = true := by
  rw [pclassEquiv_iff] at *
  constructor
  · exact ⟨hab.notUnique.1, hbc.notUnique.2⟩
  · exact ⟨typesMatch_trans hab.types.1 hbc.types.1, typesMatch_trans hbc.types.2 hab.types.2⟩
  · exact hab.subnodeOf.trans hbc.subnodeOf
  · exact ⟨hab.noSubnode.1, hbc.noSubnode.2⟩
  · refine forall₂_trans (fun d e f hde hef => ?_) hab.features hbc.features
    exact ⟨hde.1.trans hef.1, PartialEquivBEq.trans hde.2.1 hef.2.1, hde.2.2.trans hef.2.2⟩
  · exact hab.links.trans (sameLink_trans g.pg) hbc.links

end Features

/-! ## Section 5: The partition -/

section Partition

variable [BEq R] (g : PclassGraph R)

/-- When two pnodes are to be in one pclass. -/
def SharePclass (pclassForEachPnode : Bool) (a b : PVertex) : Prop :=
  pclassForEachPnode = false ∧ pclassEquiv g a b = true

/-- The pnodes that have been visited are classified, and classes are numbered in turn. -/
structure Generated (pclassForEachPnode : Bool) (done : List PVertex) (s : Generation) :
    Prop where
  classified : Classified (SharePclass g pclassForEachPnode) done s.canonicalMembers s.myClass
  class_lt : ∀ a c, s.myClass a = some c → c < s.pclasses.length
  noOwnClass : ∀ a, s.myOwnClass a = none

variable {g} {pclassForEachPnode : Bool} {done : List PVertex} {s : Generation}

theorem generated_initial : Generated g pclassForEachPnode [] .initial where
  classified := classified_nil _
  class_lt := fun _ _ h => by cases h
  noOwnClass := fun _ => rfl

theorem Generated.keys_lt (h : Generated g pclassForEachPnode done s) :
    ∀ e ∈ s.canonicalMembers, e.1 < s.pclasses.length := by
  intro e he
  exact h.class_lt e.2 e.1 (h.classified.rep_mem e he).2

theorem findClass_some {o : IterationOrder (Nat × PVertex)} {pv : PVertex} {c : Nat}
    (h : findClass g o pv s = some c) : ∃ e ∈ s.canonicalMembers, e.1 = c ∧ pclassEquiv g pv e.2 = true := by
  obtain ⟨e, he, heq⟩ := map_eq_some_iff.mp h
  have hequiv := List.find?_some he
  exact ⟨e, (o.perm _).mem_iff.mp (mem_of_find?_eq_some he), heq, hequiv⟩

theorem findClass_none {o : IterationOrder (Nat × PVertex)} {pv : PVertex} (h : findClass g o pv s = none) :
    ∀ e ∈ s.canonicalMembers, ¬ pclassEquiv g pv e.2 = true := by
  intro e he
  exact List.find?_eq_none.mp (map_eq_none_iff.mp h) e ((o.perm _).mem_iff.mpr he)

variable [PartialEquivBEq R]

theorem sharePclass_symm (a b : PVertex) (h : SharePclass g pclassForEachPnode a b) :
    SharePclass g pclassForEachPnode b a := ⟨h.1, pclassEquiv_symm g a b h.2⟩

theorem sharePclass_trans (a b c : PVertex) (hab : SharePclass g pclassForEachPnode a b)
    (hbc : SharePclass g pclassForEachPnode b c) : SharePclass g pclassForEachPnode a c :=
  ⟨hab.1, pclassEquiv_trans g a b c hab.2 hbc.2⟩

theorem Generated.classifyPnode (h : Generated g pclassForEachPnode done s)
    (o : IterationOrder (Nat × PVertex)) {pv : PVertex} (hpv : pv ∉ done) :
    Generated g pclassForEachPnode (pv :: done) (classifyPnode g pclassForEachPnode o s pv) := by
  have hupdate (c n : Nat) (hc : c < n) (hn : s.pclasses.length ≤ n) :
      ∀ a c', update s.myClass pv (some c) a = some c' → c' < n := by
    intro a c' heq
    by_cases ha : a = pv
    · rw [ha, update_self] at heq
      cases heq
      exact hc
    · rw [update_of_ne ha] at heq
      exact (h.class_lt a c' heq).trans_le hn
  unfold Assign.classifyPnode
  cases hfind : if pclassForEachPnode then none else findClass g o pv s with
  | some c =>
    split_ifs at hfind with heach
    obtain ⟨e, he, rfl, hequiv⟩ := findClass_some hfind
    have heach' : pclassForEachPnode = false := by simpa using heach
    constructor
    · exact h.classified.join hpv he ⟨heach', hequiv⟩
    · intro a c hc
      show c < (s.pclasses.modify _ _).length
      rw [length_modify]
      exact hupdate e.1 _ (h.keys_lt e he) le_rfl a c hc
    · exact h.noOwnClass
  | none =>
    constructor
    · apply h.classified.new hpv
      · intro hmem
        obtain ⟨e, he, heq⟩ := mem_map.mp hmem
        have := h.keys_lt e he
        omega
      · intro e he hshare
        rw [if_neg (by simp [hshare.1])] at hfind
        exact findClass_none hfind e he (pclassEquiv_symm g _ _ hshare.2)
    · intro a c hc
      show c < (s.pclasses ++ _).length
      rw [length_append]
      exact hupdate s.pclasses.length _ (by simp) (by simp) a c hc
    · exact h.noOwnClass

theorem Generated.foldl (h : Generated g pclassForEachPnode done s)
    (o : IterationOrder (Nat × PVertex)) {pvertexes : List PVertex} (hnodup : pvertexes.Nodup)
    (hnew : ∀ pv ∈ pvertexes, pv ∉ done) :
    Generated g pclassForEachPnode (pvertexes.reverse ++ done)
      (pvertexes.foldl (Assign.classifyPnode g pclassForEachPnode o) s) := by
  induction pvertexes generalizing done s with
  | nil => exact h
  | cons pv pvertexes ih =>
    obtain ⟨hpv, hnodup⟩ := nodup_cons.mp hnodup
    have hstep := h.classifyPnode o (hnew pv mem_cons_self)
    have hrest : ∀ a ∈ pvertexes, a ∉ pv :: done := by
      intro a ha hmem
      rcases mem_cons.mp hmem with rfl | hmem
      · exact hpv ha
      · exact hnew a (mem_cons_of_mem _ ha) hmem
    rw [reverse_cons, append_assoc]
    exact ih hstep hnodup hrest

end Partition

/-! ## Section 6: Dynamic pclasses -/

/-- The classes of pnodes of their own come after the others, and have one member each. -/
structure AddsOwn (s s' : Generation) : Prop where
  myClass : s'.myClass = s.myClass
  length_le : s.pclasses.length ≤ s'.pclasses.length
  pclasses : ∀ c < s.pclasses.length, s'.pclasses[c]? = s.pclasses[c]?
  own_lt : ∀ a c, s'.myOwnClass a = some c → s.pclasses.length ≤ c ∧ c < s'.pclasses.length
  own_inj : ∀ a b c, s'.myOwnClass a = some c → s'.myOwnClass b = some c → a = b

theorem addsOwn_refl {s : Generation} (h : ∀ a, s.myOwnClass a = none) : AddsOwn s s where
  myClass := rfl
  length_le := le_rfl
  pclasses := fun _ _ => rfl
  own_lt := fun a c hc => by rw [h a] at hc; cases hc
  own_inj := fun a b c hc => by rw [h a] at hc; cases hc

theorem AddsOwn.ownClass {s₀ s : Generation} (h : AddsOwn s₀ s) (g : PclassGraph R) {pv : PVertex}
    {c : Nat} (hpv : s₀.myClass pv = some c) (hc : c < s₀.pclasses.length) :
    ∃ s', ownClass g s pv = .ok s' ∧ AddsOwn s₀ s' := by
  have hclass : (s.myClass pv).bind (fun c => s.pclasses[c]?) = some s₀.pclasses[c] := by
    rw [h.myClass, hpv, bind_some, h.pclasses c hc, List.getElem?_eq_getElem hc]
  unfold Assign.ownClass
  rw [hclass]
  dsimp only
  split_ifs
  · exact ⟨s, rfl, h⟩
  · exact ⟨s, rfl, h⟩
  · refine ⟨_, rfl, ?_⟩
    have hold : ∀ a c', update s.myOwnClass pv (some s.pclasses.length) a = some c' →
        (a = pv ∧ c' = s.pclasses.length) ∨ s.myOwnClass a = some c' := by
      intro a c' heq
      by_cases ha : a = pv
      · rw [ha, update_self] at heq
        exact Or.inl ⟨ha, (some.inj heq).symm⟩
      · rw [update_of_ne ha] at heq
        exact Or.inr heq
    have hle := h.length_le
    constructor
    · exact h.myClass
    · simp only [length_append]
      omega
    · intro c' hc'
      dsimp only
      rw [List.getElem?_append_left (by omega)]
      exact h.pclasses c' hc'
    · intro a c' hc'
      simp only [length_append, length_singleton]
      rcases hold a c' hc' with ⟨-, heq⟩ | hc'
      · omega
      · have := h.own_lt a c' hc'
        omega
    · intro a b c' ha hb
      rcases hold a c' ha with ⟨ha, hac⟩ | ha
      · rcases hold b c' hb with ⟨hb, -⟩ | hb
        · rw [ha, hb]
        · have := h.own_lt b c' hb
          omega
      · rcases hold b c' hb with ⟨-, hbc⟩ | hb
        · have := h.own_lt a c' ha
          omega
        · exact h.own_inj a b c' ha hb

/-- The loop. -/
theorem AddsOwn.foldlM {s₀ s : Generation} (h : AddsOwn s₀ s) (g : PclassGraph R) {vertices : List PVertex}
    (hclasses : ∀ pv ∈ vertices, ∃ c, s₀.myClass pv = some c ∧ c < s₀.pclasses.length) :
    ∃ s', vertices.foldlM (Assign.ownClass g) s = .ok s' ∧ AddsOwn s₀ s' := by
  induction vertices generalizing s with
  | nil => exact ⟨s, rfl, h⟩
  | cons pv vertices ih =>
    obtain ⟨c, hpv, hc⟩ := hclasses pv mem_cons_self
    obtain ⟨s', hs', h'⟩ := h.ownClass g hpv hc
    rw [foldlM_cons, hs']
    exact ih h' fun a ha => hclasses a (mem_cons_of_mem _ ha)

theorem AddsOwn.together_iff {s s' : Generation} (h : AddsOwn s s')
    (hlt : ∀ a c, s.myClass a = some c → c < s.pclasses.length) {a b : PVertex} (hne : a ≠ b)
    (ha : ∃ c, s.myClass a = some c) : s'.Together a b ↔ s.myClass a = s.myClass b := by
  unfold Generation.Together Generation.Placed
  rw [h.myClass]
  constructor
  · rintro ⟨c, hac | hac, hbc | hbc⟩
    · rw [hac, hbc]
    · have := hlt a c hac
      have := h.own_lt b c hbc
      omega
    · have := h.own_lt a c hac
      have := hlt b c hbc
      omega
    · exact absurd (h.own_inj a b c hac hbc) hne
  · intro heq
    obtain ⟨c, hc⟩ := ha
    exact ⟨c, Or.inl hc, Or.inl (heq ▸ hc)⟩

/-! ## Section 7: Any order -/

section AnyOrder

variable [BEq R] [PartialEquivBEq R]

theorem generatePclasses_together (g : PclassGraph R) (pclassForEachPnode dynamicPclasses : Bool)
    {pvertexes : List PVertex} (hperm : pvertexes.Perm g.vertices) (o : IterationOrder (Nat × PVertex)) :
    ∃ s, generatePclasses g pclassForEachPnode dynamicPclasses pvertexes o = .ok s ∧
      (∀ a ∈ g.vertices, s.Together a a) ∧
      ∀ a ∈ g.vertices, ∀ b ∈ g.vertices, a ≠ b → (s.Together a b ↔ SharePclass g pclassForEachPnode a b) := by
  have hnodup : pvertexes.Nodup := hperm.nodup_iff.mpr g.vertices_nodup
  have hstart : Generated g pclassForEachPnode [] .initial := generated_initial
  have hgen := hstart.foldl o hnodup (by simp)
  rw [append_nil] at hgen
  unfold generatePclasses
  dsimp only
  generalize pvertexes.foldl (classifyPnode g pclassForEachPnode o) .initial = s at hgen ⊢
  have hdone : ∀ a ∈ g.vertices, a ∈ pvertexes.reverse := fun a ha =>
    mem_reverse.mpr (hperm.mem_iff.mpr ha)
  have hclasses : ∀ a ∈ g.vertices, ∃ c, s.myClass a = some c ∧ c < s.pclasses.length := by
    intro a ha
    obtain ⟨e, he, hcls, -⟩ := hgen.classified.has_rep a (hdone a ha)
    exact ⟨e.1, hcls, hgen.keys_lt e he⟩
  have hown : ∃ s', (if dynamicPclasses then g.vertices.foldlM (ownClass g) s else .ok s) = .ok s' ∧
      AddsOwn s s' := by
    have hrefl := addsOwn_refl hgen.noOwnClass
    cases dynamicPclasses with
    | false => exact ⟨s, rfl, hrefl⟩
    | true => exact hrefl.foldlM g hclasses
  obtain ⟨s', hs', hadds⟩ := hown
  refine ⟨s', hs', ?_, ?_⟩
  · intro a ha
    obtain ⟨c, hc, -⟩ := hclasses a ha
    have hplaced : s'.Placed a c := Or.inl (hadds.myClass ▸ hc)
    exact ⟨c, hplaced, hplaced⟩
  · intro a ha b hb hne
    obtain ⟨c, hc, -⟩ := hclasses a ha
    rw [hadds.together_iff hgen.class_lt hne ⟨c, hc⟩]
    exact hgen.classified.same_iff sharePclass_symm sharePclass_trans (hdone a ha) (hdone b hb) hne

/-- `pclass_equiv` is symmetric and transitive. Pnodes are placed in the same
    pclass if and only if they are equivalent, with `-p` never. So the partition
    is the same for every order of the pnodes and of the canonical members. -/
theorem generatePclasses_order_independent (g : PclassGraph R) :
    (∀ a b, pclassEquiv g a b = true → pclassEquiv g b a = true) ∧
    (∀ a b c, pclassEquiv g a b = true → pclassEquiv g b c = true → pclassEquiv g a c = true) ∧
    ∀ (pclassForEachPnode dynamicPclasses : Bool) (pvertexes : List PVertex)
      (o : IterationOrder (Nat × PVertex)), pvertexes.Perm g.vertices →
      ∃ s, generatePclasses g pclassForEachPnode dynamicPclasses pvertexes o = .ok s ∧
        (∀ a ∈ g.vertices, ∀ b ∈ g.vertices, a ≠ b → s.Together a b → pclassEquiv g a b = true) ∧
        (pclassForEachPnode = false → ∀ a ∈ g.vertices, ∀ b ∈ g.vertices, a ≠ b →
          pclassEquiv g a b = true → s.Together a b) ∧
        (pclassForEachPnode = true → ∀ a ∈ g.vertices, ∀ b ∈ g.vertices, a ≠ b → ¬ s.Together a b) ∧
        ∀ (dynamicPclasses' : Bool) (pvertexes' : List PVertex)
          (o' : IterationOrder (Nat × PVertex)), pvertexes'.Perm g.vertices →
          ∃ s', generatePclasses g pclassForEachPnode dynamicPclasses' pvertexes' o' = .ok s' ∧
            ∀ a ∈ g.vertices, ∀ b ∈ g.vertices, s.Together a b ↔ s'.Together a b := by
  refine ⟨pclassEquiv_symm g, pclassEquiv_trans g, ?_⟩
  intro each dynamic pvertexes o hperm
  obtain ⟨s, hs, hself, hiff⟩ := generatePclasses_together g each dynamic hperm o
  refine ⟨s, hs, ?_, ?_, ?_, ?_⟩
  · intro a ha b hb hne htogether
    exact ((hiff a ha b hb hne).mp htogether).2
  · intro heach a ha b hb hne hequiv
    exact (hiff a ha b hb hne).mpr ⟨heach, hequiv⟩
  · intro heach a ha b hb hne htogether
    have hno := ((hiff a ha b hb hne).mp htogether).1
    rw [heach] at hno
    cases hno
  · intro dynamic' pvertexes' o' hperm'
    obtain ⟨s', hs', hself', hiff'⟩ := generatePclasses_together g each dynamic' hperm' o'
    refine ⟨s', hs', fun a ha b hb => ?_⟩
    by_cases hne : a = b
    · subst hne
      exact iff_of_true (hself a ha) (hself' a ha)
    · rw [hiff a ha b hb hne, hiff' a ha b hb hne]

end AnyOrder

/-! ### Two nodes that are the same -/

/-- Two pnodes of one type, with no links. -/
def twins : PclassGraph ℚ where
  pg := {
    edges := []
    pnode := fun p => {
      name := if p = 0 then "pc1" else "pc2"
      types := [("pc", ⟨1, false⟩)]
      typeList := [("pc", 1)]
      features := []
      switches := []
      isSwitch := false
      trivialBw := 0
      subnodeOf := none
      myClass := none
      myOwnClass := none }
    plink := fun _ => ⟨0, 0, "", "", "", .normal, [], 0, false⟩
    slink := fun _ _ => none
    switchPreds := fun _ p => p
    numSwitches := 0
    switches_isSwitch := fun _ _ h => absurd h not_mem_nil
    slink_interswitch := fun _ _ _ h => by cases h }
  vertices := [0, 1]
  vertices_nodup := by decide
  unique := fun _ => false
  hasSubnode := fun _ => false

def insertionOrder (β : Type) : IterationOrder β := ⟨id, fun l => .refl l⟩

theorem generatePclasses_order_independent_twins : pclassEquiv twins 0 1 = true ∧
    ∃ s, generatePclasses twins false true [1, 0] (insertionOrder _) = .ok s ∧ s.Together 0 1 := by
  have hequiv : pclassEquiv twins 0 1 = true := by decide +kernel
  obtain ⟨-, -, h⟩ := generatePclasses_order_independent twins
  obtain ⟨s, hs, -, htogether, -, -⟩ := h false true [1, 0] (insertionOrder _) (by decide)
  exact ⟨hequiv, s, hs, htogether rfl 0 (by decide) 1 (by decide) (by decide) hequiv⟩

/-- With `-p` equivalent pnodes are not placed in the same pclass. -/
theorem twins_each : ¬ ∀ (pclassForEachPnode dynamicPclasses : Bool) (pvertexes : List PVertex)
    (o : IterationOrder (Nat × PVertex)), pvertexes.Perm twins.vertices →
    ∃ s, generatePclasses twins pclassForEachPnode dynamicPclasses pvertexes o = .ok s ∧
      ∀ a ∈ twins.vertices, ∀ b ∈ twins.vertices, a ≠ b → pclassEquiv twins a b = true → s.Together a b := by
  intro h
  obtain ⟨s, hs, hall⟩ := h true false [0, 1] (insertionOrder _) (.refl _)
  obtain ⟨c, ha, hb⟩ := hall 0 (by decide) 1 (by decide) (by decide) (by decide +kernel)
  cases hs
  rcases ha with ha | ha
  · rcases hb with hb | hb
    · have hc : (some 0 : Option Nat) = some 1 := ha.trans hb.symm
      cases hc
    · cases hb
  · cases ha

end Emulab.Assign
