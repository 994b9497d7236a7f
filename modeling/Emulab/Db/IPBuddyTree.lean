import Emulab.Db.IPBuddyAlloc

/-! # The tree of the IP buddy allocator

  Every leaf of the tree is terminal, so the tree is determined by its
  terminal nodes. Embedding a range and finding a free one each add one
  terminal node, or else change nothing.
-/

namespace Emulab.Db

open List Option

variable {T : Type} {B : TreeBinary T}

/-! ## Section 1: Trees and their shapes -/

/-- A child of the given shape, at the end of the given bit. An inner node has terminal nodes below it. -/
def Rep (B : TreeBinary T) (bit : Bool) : Option T → Shape → Prop
  | o, .none => o = none
  | o, .term => ∃ t, o = some t ∧ B.getNodeValue t = .node bit true ∧ B.getLeft t = none ∧ B.getRight t = none
  | o, .inner f => ∃ t, o = some t ∧ B.getNodeValue t = .node bit false ∧
    (∀ b, Rep B b (getChild B b t) (f b)) ∧ (Shape.inner f).ways ≠ []

def Children (B : TreeBinary T) (t : T) (f : Bool → Shape) : Prop :=
  ∀ b, Rep B b (getChild B b t) (f b)

theorem getChild_new (hB : B.Lawful) (v : NodeValue) (b : Bool) : getChild B b (B.new v) = none := by
  cases b
  · exact hB.getLeft_new v
  · exact hB.getRight_new v

theorem getNodeValue_setChild (hB : B.Lawful) (b : Bool) (t c : T) :
    B.getNodeValue (setChild B b t c) = B.getNodeValue t := by
  cases b
  · exact hB.getNodeValue_setLeft t c
  · exact hB.getNodeValue_setRight t c

theorem getChild_setChild (hB : B.Lawful) (b : Bool) (t c : T) : getChild B b (setChild B b t c) = some c := by
  cases b
  · exact hB.getLeft_setLeft t c
  · exact hB.getRight_setRight t c

theorem getChild_setChild_ne (hB : B.Lawful) {b b' : Bool} (h : b' ≠ b) (t c : T) :
    getChild B b' (setChild B b t c) = getChild B b' t := by
  cases b <;> cases b'
  · exact absurd rfl h
  · exact hB.getRight_setLeft t c
  · exact hB.getLeft_setRight t c
  · exact absurd rfl h

theorem setChild_getChild (hB : B.Lawful) {b : Bool} {t c : T} (h : getChild B b t = some c) :
    setChild B b t c = t := by
  cases b
  · exact hB.setLeft_getLeft t c h
  · exact hB.setRight_getRight t c h

theorem children_new (hB : B.Lawful) (v : NodeValue) : Children B (B.new v) fun _ => .none := by
  intro b
  exact getChild_new hB v b

variable {f : Bool → Shape}

theorem Children.setChild (hB : B.Lawful) {t : T} (h : Children B t f)
    {b : Bool} {c : T} {s : Shape} (hc : Rep B b (some c) s) : Children B (setChild B b t c) (setAt f b s) := by
  intro b'
  by_cases hb : b' = b
  · subst hb
    rw [getChild_setChild hB, setAt, if_pos rfl]
    exact hc
  · rw [getChild_setChild_ne hB hb, setAt, if_neg hb]
    exact h b'

theorem rep_term (hB : B.Lawful) (b : Bool) : Rep B b (some (B.new (.node b true))) .term :=
  ⟨_, rfl, hB.getNodeValue_new _, hB.getLeft_new _, hB.getRight_new _⟩

/-- There is no child exactly if there are no terminal nodes below it. -/
theorem Rep.eq_none_iff {b : Bool} {o : Option T} {s : Shape} (h : Rep B b o s) : o = none ↔ s.ways = [] := by
  cases s with
  | none => exact iff_of_true h rfl
  | term =>
    obtain ⟨t, rfl, -⟩ := h
    exact iff_of_false (by simp) (by simp [Shape.ways])
  | inner f =>
    obtain ⟨t, rfl, -, -, hne⟩ := h
    exact iff_of_false (by simp) hne

theorem Rep.of_some {b : Bool} {t : T} {s : Shape} (h : Rep B b (some t) s) :
    (s = .term ∧ B.getNodeValue t = .node b true) ∨
      ∃ f, s = .inner f ∧ B.getNodeValue t = .node b false ∧ Children B t f ∧ s.ways ≠ [] := by
  cases s with
  | none => exact absurd h (by simp [Rep])
  | term =>
    obtain ⟨t', ht, hv, -⟩ := h
    obtain rfl := some.inj ht
    exact Or.inl ⟨rfl, hv⟩
  | inner f =>
    obtain ⟨t', ht, hv, hf, hne⟩ := h
    obtain rfl := some.inj ht
    exact Or.inr ⟨f, rfl, hv, hf, hne⟩

theorem ways_fresh : (Shape.inner fun _ => .none).ways = [] := rfl

/-! ## Section 2: Embedding -/

/-- From `t` to `t'` the way `p` is added below the node. -/
structure Adds (B : TreeBinary T) (t : T) (f : Bool → Shape) (p : List Bool) (t' : T) : Prop where
  nodeValue : B.getNodeValue t' = B.getNodeValue t
  /-- The terminal nodes below it, and the new one. -/
  children : ∃ f', Children B t' f' ∧ (Shape.inner f').ways.Perm (p :: (Shape.inner f).ways)

theorem Adds.cons (hB : B.Lawful) {t : T} (h : Children B t f) {b : Bool}
    {c c' : T} {g : Bool → Shape} {p : List Bool} (hc : B.getNodeValue c = .node b false)
    (hadds : Adds B c g p c') (hways : (Shape.inner g).ways = (f b).ways) :
    Adds B t f (b :: p) (Emulab.Db.setChild B b t c') := by
  obtain ⟨g', hg', hperm⟩ := hadds.children
  have hne : (Shape.inner g').ways ≠ [] := by
    intro hnil
    rw [hnil] at hperm
    exact absurd hperm.nil_eq (by simp)
  constructor
  · exact getNodeValue_setChild hB b t c'
  · refine ⟨setAt f b (.inner g'), h.setChild hB ⟨c', rfl, ?_, hg', hne⟩, ways_setAt ?_⟩
    · rw [hadds.nodeValue, hc]
    · rw [← hways]
      exact hperm

theorem Adds.leaf (hB : B.Lawful) {t : T} (h : Children B t f) {b : Bool} (hnone : (f b).ways = []) :
    Adds B t f [b] (Emulab.Db.setChild B b t (B.new (.node b true))) := by
  constructor
  · exact getNodeValue_setChild hB b t _
  · refine ⟨setAt f b .term, h.setChild hB (rep_term hB b), ways_setAt ?_⟩
    rw [hnone]
    rfl

theorem embedBits_spec (hB : B.Lawful) (plen : Nat) (bits : List Bool) (curdepth : Nat) (t : T)
    (f : Bool → Shape) (h : Children B t f) (k : Nat) (hk : 1 ≤ k) (hle : k ≤ bits.length)
    (hplen : plen = curdepth + k) :
    ((∃ q ∈ (Shape.inner f).ways, Overlap (bits.take k) q) ∧ embedBits B plen bits curdepth t =
          (some "found conflicting node while embedding!", t)) ∨
      ((¬∃ q ∈ (Shape.inner f).ways, Overlap (bits.take k) q) ∧
        ∃ t', embedBits B plen bits curdepth t = (none, t') ∧ Adds B t f (bits.take k) t') := by
  induction bits generalizing curdepth t f k with
  | nil =>
    rw [length_nil] at hle
    omega
  | cons b bits ih =>
    obtain ⟨k, rfl⟩ : ∃ j, k = j + 1 := ⟨k - 1, by omega⟩
    rw [take_succ_cons, exists_overlap_inner]
    rw [length_cons] at hle
    have hb := h b
    have hterm : plen = curdepth + 1 ↔ k = 0 := by omega
    unfold embedBits
    cases hchild : getChild B b t with
    | none =>
      -- a new node
      rw [hchild] at hb
      have hnone : (f b).ways = [] := hb.eq_none_iff.mp rfl
      have hno : ¬∃ q ∈ (f b).ways, Overlap (bits.take k) q := by
        rw [hnone]
        simp
      refine Or.inr ⟨hno, ?_⟩
      by_cases hzero : k = 0
      · simp only [hterm.mpr hzero, decide_true, if_true]
        subst hzero
        exact ⟨_, rfl, Adds.leaf hB h hnone⟩
      · have hnot : ¬plen = curdepth + 1 := fun heq => hzero (hterm.mp heq)
        simp only [hnot, decide_false, Bool.false_eq_true, if_false]
        obtain ⟨⟨q, hq, -⟩, -⟩ | ⟨-, c', hc', hadds⟩ := ih (curdepth + 1)
          (B.new (.node b false)) _ (children_new hB _) k (by omega) (by omega) (by omega)
        · rw [ways_fresh] at hq
          exact absurd hq (by simp)
        · rw [hc']
          exact ⟨_, rfl, Adds.cons hB h (hB.getNodeValue_new _) hadds (ways_fresh.trans hnone.symm)⟩
    | some c =>
      rw [hchild] at hb
      by_cases hzero : k = 0
      · -- there is a node where the range would be
        left
        subst hzero
        constructor
        · obtain ⟨q, hq⟩ := exists_mem_of_ne_nil (f b).ways
            (fun hnil => by simpa using hb.eq_none_iff.mpr hnil)
          exact ⟨q, hq, overlap_nil q⟩
        · simp only [hterm.mpr rfl, decide_true, Bool.true_or, if_true]
      have hnot : ¬plen = curdepth + 1 := fun heq => hzero (hterm.mp heq)
      simp only [hnot, decide_false, Bool.false_or]
      obtain ⟨hs, hv⟩ | ⟨g, hs, hv, hg, -⟩ := hb.of_some
      · -- the range would be part of another one
        left
        constructor
        · refine ⟨[], ?_, overlap_comm.mp (overlap_nil _)⟩
          rw [hs]
          simp [Shape.ways]
        · rw [hv]
          rfl
      · rw [hv, hs]
        simp only [NodeValue.term, Bool.false_eq_true, if_false]
        obtain ⟨hover, hdied⟩ | ⟨hno, c', hc', hadds⟩ :=
          ih (curdepth + 1) c g hg k (by omega) (by omega) (by omega)
        · left
          rw [hdied]
          exact ⟨hover, by rw [setChild_getChild hB hchild]⟩
        · right
          rw [hc']
          exact ⟨hno, _, rfl, Adds.cons hB h hv hadds (by rw [hs])⟩

/-! ## Section 3: Finding a free range -/

/-- What a search for a free way of length `n` below a node results in. -/
inductive Search (B : TreeBinary T) (t : T) (f : Bool → Shape) (n : Nat) :
    Option (List Bool) × T → Prop where
  | nothing (hover : ∀ p : List Bool, p.length = n → ∃ q ∈ (Shape.inner f).ways, Overlap p q) :
    Search B t f n (none, t)
  /-- A way that is free is added. -/
  | found (p : List Bool) (t' : T) (hlen : p.length = n)
    (hfree : ¬∃ q ∈ (Shape.inner f).ways, Overlap p q) (hadds : Adds B t f p t') :
    Search B t f n (some p, t')

theorem findFree_term {t : T} (h : (B.getNodeValue t).term = true) (above : Nat) :
    findFree B above t = (none, t) := by
  cases above with
  | zero => rw [findFree, if_pos h]
  | succ above => rw [findFree, if_pos h]

theorem exists_length (n : Nat) : ∃ p : List Bool, p.length = n :=
  ⟨List.replicate n false, length_replicate⟩

/-- The search below a child, which is made if it is not there. -/
theorem childOrNew_spec (hB : B.Lawful) {above n : Nat}
    (ih : ∀ c g, Children B c g → (B.getNodeValue c).term = false →
      Search B c g n (findFree B above c)) {t : T} (h : Children B t f) (b : Bool) :
    (∃ c, findFree B above (childOrNew B b t) = (none, c) ∧ setChild B b t c = t ∧
        ∀ p : List Bool, p.length = n → ∃ q ∈ (f b).ways, Overlap p q) ∨
      ∃ p c, findFree B above (childOrNew B b t) = (some p, c) ∧ p.length = n ∧
        (¬∃ q ∈ (f b).ways, Overlap p q) ∧ Adds B t f (b :: p) (setChild B b t c) := by
  have hb := h b
  unfold childOrNew
  cases hchild : getChild B b t with
  | none =>
    -- a new child is empty, so the search succeeds
    rw [hchild] at hb
    have hnone : (f b).ways = [] := hb.eq_none_iff.mp rfl
    right
    rw [getD_none]
    have hsearch := ih (B.new (.node b false)) _ (children_new hB _) (by rw [hB.getNodeValue_new]; rfl)
    generalize findFree B above (B.new (.node b false)) = r at hsearch
    cases hsearch with
    | nothing hover =>
      obtain ⟨p, hp⟩ := exists_length n
      obtain ⟨q, hq, -⟩ := hover p hp
      rw [ways_fresh] at hq
      exact absurd hq (by simp)
    | found p c hlen hfree hadds =>
      refine ⟨p, c, rfl, hlen, by rw [hnone]; simp, ?_⟩
      exact Adds.cons hB h (hB.getNodeValue_new _) hadds (ways_fresh.trans hnone.symm)
  | some c =>
    rw [hchild] at hb
    rw [getD_some]
    obtain ⟨hs, hv⟩ | ⟨g, hs, hv, hg, -⟩ := hb.of_some
    · left
      refine ⟨c, findFree_term (by rw [hv]; rfl) above, setChild_getChild hB hchild, ?_⟩
      intro p _
      refine ⟨[], ?_, overlap_comm.mp (overlap_nil p)⟩
      rw [hs]
      simp [Shape.ways]
    · have hsearch := ih c g hg (by rw [hv]; rfl)
      generalize findFree B above c = r at hsearch
      rw [hs]
      cases hsearch with
      | nothing hover => exact Or.inl ⟨c, rfl, setChild_getChild hB hchild, hover⟩
      | found p c' hlen hfree hadds =>
        exact Or.inr ⟨p, c', rfl, hlen, hfree, Adds.cons hB h hv hadds (by rw [hs])⟩

theorem findFree_spec (hB : B.Lawful) (above : Nat) (t : T) (f : Bool → Shape)
    (h : Children B t f) (hterm : (B.getNodeValue t).term = false) :
    Search B t f (above + 1) (findFree B above t) := by
  induction above generalizing t f with
  | zero =>
    rw [findFree, if_neg (by rw [hterm]; decide)]
    by_cases hright : (B.getRight t).isNone = true
    · -- the slot on the right is free
      rw [if_pos hright]
      have hnone : (f true).ways = [] := (h true).eq_none_iff.mp (isNone_iff_eq_none.mp hright)
      refine .found [true] _ rfl ?_ (Adds.leaf hB h hnone)
      rw [exists_overlap_inner, hnone]
      simp
    rw [if_neg hright]
    by_cases hleft : (B.getLeft t).isNone = true
    · rw [if_pos hleft]
      have hnone : (f false).ways = [] := (h false).eq_none_iff.mp (isNone_iff_eq_none.mp hleft)
      refine .found [false] _ rfl ?_ (Adds.leaf hB h hnone)
      rw [exists_overlap_inner, hnone]
      simp
    · rw [if_neg hleft]
      refine .nothing fun p hp => ?_
      obtain ⟨b, rfl⟩ := length_eq_one_iff.mp hp
      rw [exists_overlap_inner]
      have hsome : ¬getChild B b t = none := by
        intro hnone
        cases b
        · exact hleft (isNone_iff_eq_none.mpr hnone)
        · exact hright (isNone_iff_eq_none.mpr hnone)
      obtain ⟨q, hq⟩ := exists_mem_of_ne_nil (f b).ways
        (fun hnil => hsome ((h b).eq_none_iff.mpr hnil))
      exact ⟨q, hq, overlap_nil q⟩
  | succ above ih =>
    rw [findFree, if_neg (by rw [hterm]; decide)]
    obtain ⟨c, hres, hsame, hright⟩ | ⟨p, c, hres, hlen, hfree, hadds⟩ :=
      childOrNew_spec hB (fun c g => ih c g) h true
    · -- nothing to the right: the tree is as it was
      rw [hres]
      have hset : B.setRight t c = t := hsame
      simp only [hset]
      obtain ⟨c', hres', hsame', hleft⟩ | ⟨p, c', hres', hlen, hfree, hadds⟩ :=
        childOrNew_spec hB (fun c g => ih c g) h false
      · rw [hres']
        have hset' : B.setLeft t c' = t := hsame'
        simp only [hset', map_none]
        refine .nothing fun p hp => ?_
        cases p with
        | nil => exact absurd hp (by simp)
        | cons b p =>
          rw [exists_overlap_inner]
          have hp' : p.length = above + 1 := by simpa using hp
          cases b
          · exact hleft p hp'
          · exact hright p hp'
      · rw [hres']
        refine .found (false :: p) _ (by simp [hlen]) ?_ hadds
        rw [exists_overlap_inner]
        exact hfree
    · rw [hres]
      refine .found (true :: p) _ (by simp [hlen]) ?_ hadds
      rw [exists_overlap_inner]
      exact hfree

theorem addrBits_eq (t : T) (f : Bool → Shape) (h : Children B t f) (p : List Bool)
    (hp : p ∈ (Shape.inner f).ways) : addrBits B t p = p := by
  induction p generalizing t f with
  | nil => rfl
  | cons b p ih =>
    have hp' : p ∈ (f b).ways := mem_ways_inner.mp hp
    have hb := h b
    rw [addrBits]
    cases hchild : getChild B b t with
    | none =>
      rw [hchild] at hb
      rw [hb.eq_none_iff.mp rfl] at hp'
      exact absurd hp' (by simp)
    | some c =>
      rw [hchild] at hb
      obtain ⟨hs, hv⟩ | ⟨g, hs, hv, hg, -⟩ := hb.of_some
      · rw [hs] at hp'
        obtain rfl : p = [] := by simpa [Shape.ways] using hp'
        simp only [hv, addrBits, NodeValue.bit]
      · rw [hs] at hp'
        simp only [hv, NodeValue.bit, ih c g hg hp']

/-! ## Section 4: Listing the ranges -/

section
variable (bprebits : List Bool) (postlen pflen : Nat)

def rangeOf (way : List Bool) : Range where
  addr := bprebits ++ way ++ List.replicate (postlen - way.length) false
  plen := way.length + pflen

/-- Visiting the nodes from a child on adds the ranges below it, and leaves the
    bits on the way to its parent as they were. -/
theorem visit_child (hB : B.Lawful) (s : Shape) (b : Bool) (o : Option T) (h : Rep B b o s)
    (way : List Bool) (st : List Bool × List Range) (hst : st.1.take way.length = way) :
    ∃ addr : List Bool, addr.take way.length = way ∧
      ((o.elim [] B.traverse).map fun x => (x.1 + (way.length + 1), x.2)).foldl
          (visitNode B bprebits postlen pflen) st =
        (addr, st.2 ++ s.ways.map fun p => rangeOf bprebits postlen pflen (way ++ b :: p)) := by
  induction s generalizing b o way st with
  | none =>
    obtain rfl : o = none := h
    exact ⟨st.1, hst, by simp [Shape.ways]⟩
  | term =>
    obtain ⟨t, rfl, hv, hl, hr⟩ := h
    refine ⟨way ++ [b], by simp, ?_⟩
    rw [elim_some, hB.traverse_eq, hl, hr]
    simp [visitNode, hv, hl, hr, hst, NodeValue.bit, Shape.ways, rangeOf]
  | inner f ih =>
    obtain ⟨t, rfl, hv, hf, hne⟩ := h
    -- the node itself is not a leaf
    have hleaf : ((B.getLeft t).isNone && (B.getRight t).isNone) = false := by
      rw [← Bool.not_eq_true, Bool.and_eq_true, isNone_iff_eq_none, isNone_iff_eq_none]
      intro hnone
      apply hne
      rw [Shape.ways, (hf false).eq_none_iff.mp hnone.1, (hf true).eq_none_iff.mp hnone.2]
      rfl
    have hvisit : visitNode B bprebits postlen pflen st (0 + (way.length + 1), t) = (way ++ [b], st.2) := by
      simp [visitNode, hv, hleaf, hst, NodeValue.bit]
    have hway : (way ++ [b]).length = way.length + 1 := by simp
    obtain ⟨addr, haddr, hfold⟩ := ih false false _ (hf false) (way ++ [b]) (way ++ [b], st.2)
      (by simp)
    obtain ⟨addr', haddr', hfold'⟩ := ih true true _ (hf true) (way ++ [b])
      (addr, st.2 ++ (f false).ways.map fun p =>
        rangeOf bprebits postlen pflen (way ++ [b] ++ false :: p)) haddr
    refine ⟨addr', ?_, ?_⟩
    · rw [hway] at haddr'
      have := congrArg (List.take way.length) haddr'
      rw [take_take, Nat.min_eq_left (by omega), take_left] at this
      exact this
    · rw [elim_some, hB.traverse_eq, map_cons, foldl_cons, hvisit, List.map_map, map_append, foldl_append]
      rw [hway] at hfold hfold'
      have hshift : ((fun x : Nat × T => (x.1 + (way.length + 1), x.2)) ∘
          fun x : Nat × T => (x.1 + 1, x.2)) =
          fun x : Nat × T => (x.1 + (way.length + 1 + 1), x.2) := by
        funext x
        simp only [Function.comp]
        congr 1
        omega
      have hget : ∀ c, getChild B c t = if c then B.getRight t else B.getLeft t := fun _ => rfl
      simp only [hget, Bool.false_eq_true, if_false, if_true] at hfold hfold'
      rw [hshift, hfold, hfold', Shape.ways]
      simp [Function.comp_def]

end

theorem foldl_visitNode (hB : B.Lawful) {t : T} (h : Children B t f) (bprebits : List Bool) (postlen pflen : Nat) :
    ((B.traverse t).foldl (visitNode B bprebits postlen pflen) ([], [])).2 =
      (Shape.inner f).ways.map (rangeOf bprebits postlen pflen) := by
  have hroot : visitNode B bprebits postlen pflen ([], []) (0, t) = ([], []) := rfl
  obtain ⟨addr, haddr, hfold⟩ := visit_child bprebits postlen pflen hB (f false) false _ (h false)
    [] ([], []) rfl
  obtain ⟨addr', -, hfold'⟩ := visit_child bprebits postlen pflen hB (f true) true _ (h true)
    [] (addr, (f false).ways.map fun p => rangeOf bprebits postlen pflen (false :: p)) rfl
  rw [hB.traverse_eq, foldl_cons, hroot, map_append, foldl_append]
  simp only [length_nil, Nat.zero_add, nil_append] at hfold hfold'
  have hget : ∀ c, getChild B c t = if c then B.getRight t else B.getLeft t := fun _ => rfl
  simp only [hget, Bool.false_eq_true, if_false, if_true] at hfold hfold'
  rw [hfold, hfold', Shape.ways]
  simp [Function.comp_def]

end Emulab.Db
