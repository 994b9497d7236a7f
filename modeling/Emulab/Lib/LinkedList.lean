import Mathlib.Tactic

/-! # Linked lists in memory

  A singly linked list, whose nodes are in a memory in which nodes are
  allocated and freed. A link is a place where a pointer to a node is
  stored: the head of the list, or the `next` field of a node. An access to
  memory that is not allocated fails.

  What is in memory is described by the list of the nodes' addresses and
  values; each operation on the memory is one on this list.
-/

namespace LinkedList

open Function List

variable {β : Type*}

/-! ## Section 1: Memory -/

structure Node (β : Type*) where
  /-- The next node; `none` at the end of the list. -/
  next : Option Nat
  val : β

/-- A place where a pointer is stored. -/
inductive Link where
  | head
  /-- The `next` field of a node. -/
  | next (p : Nat)
deriving DecidableEq

/-- The head of a list, and the nodes that are allocated. -/
structure Memory (β : Type*) where
  head : Option Nat
  heap : Nat → Option (Node β)

namespace Memory

/-- The pointer that is stored in a link. -/
def deref (m : Memory β) : Link → Option (Option Nat)
  | .head => some m.head
  | .next p => (m.heap p).map (·.next)

def store (m : Memory β) (l : Link) (q : Option Nat) : Option (Memory β) :=
  match l with
  | .head => some { m with head := q }
  | .next p => (m.heap p).map fun n =>
    { m with heap := update m.heap p (some { n with next := q }) }

/-- Change the value of a node. -/
def modify (m : Memory β) (p : Nat) (f : β → β) : Option (Memory β) :=
  (m.heap p).map fun n =>
    { m with heap := update m.heap p (some { n with val := f n.val }) }

/-- Write a node to memory that has just been allocated. -/
def write (m : Memory β) (p : Nat) (n : Node β) : Memory β :=
  { m with heap := update m.heap p (some n) }

def free (m : Memory β) (p : Nat) : Option (Memory β) :=
  (m.heap p).map fun _ => { m with heap := update m.heap p none }

end Memory

/-! ## Section 2: What is in memory -/

/-- The pointer to the first node. -/
def first (cells : List (Nat × β)) : Option Nat := cells.head?.map Prod.fst

@[simp] theorem first_nil : first ([] : List (Nat × β)) = none := rfl

@[simp] theorem first_cons (c : Nat × β) (cells : List (Nat × β)) : first (c :: cells) = some c.1 := rfl

/-- The pointer to the last node. -/
def last (cells : List (Nat × β)) : Option Nat := cells.getLast?.map Prod.fst

@[simp] theorem last_nil : last ([] : List (Nat × β)) = none := rfl

@[simp] theorem last_snoc (cells : List (Nat × β)) (c : Nat × β) : last (cells ++ [c]) = some c.1 := by
  simp [last]

/-- The link behind a node, or the head if there is none. -/
def Link.behind : Option Nat → Link
  | none => .head
  | some p => .next p

def Link.owner : Link → Option Nat
  | .head => none
  | .next p => some p

@[simp] theorem Link.owner_behind (q : Option Nat) : (Link.behind q).owner = q := by
  cases q <;> rfl

@[simp] theorem Link.behind_some (p : Nat) : Link.behind (some p) = .next p := rfl

/-- The link behind some nodes. -/
def linkBehind (pre : List (Nat × β)) : Link := .behind (last pre)

@[simp] theorem linkBehind_nil : linkBehind ([] : List (Nat × β)) = .head := rfl

@[simp] theorem linkBehind_snoc (pre : List (Nat × β)) (c : Nat × β) : linkBehind (pre ++ [c]) = .next c.1 := by
  simp [linkBehind]

theorem linkBehind_cons_cons (c c' : Nat × β) (pre : List (Nat × β)) :
    linkBehind (c :: c' :: pre) = linkBehind (c' :: pre) := by
  simp [linkBehind, last, List.getLast?_cons_cons]

def ptrs (cells : List (Nat × β)) : List Nat := cells.map Prod.fst

@[simp] theorem ptrs_cons (c : Nat × β) (cells : List (Nat × β)) : ptrs (c :: cells) = c.1 :: ptrs cells := rfl

@[simp] theorem ptrs_append (pre post : List (Nat × β)) : ptrs (pre ++ post) = ptrs pre ++ ptrs post := map_append

def nodeAt : List (Nat × β) → Nat → Option (Node β)
  | [], _ => none
  | (p, v) :: cells, q => if q = p then some ⟨first cells, v⟩ else nodeAt cells q

@[simp] theorem nodeAt_cons_self (p : Nat) (v : β) (cells : List (Nat × β)) :
    nodeAt ((p, v) :: cells) p = some ⟨first cells, v⟩ := if_pos rfl

theorem nodeAt_cons_of_ne {p q : Nat} (h : q ≠ p) (v : β) (cells : List (Nat × β)) :
    nodeAt ((p, v) :: cells) q = nodeAt cells q := if_neg h

/-- The list has these nodes, and there are no others in memory. -/
structure Holds (m : Memory β) (cells : List (Nat × β)) : Prop where
  head : m.head = first cells
  heap : ∀ q, m.heap q = nodeAt cells q
  nodup : (ptrs cells).Nodup

theorem nodeAt_of_not_mem {cells : List (Nat × β)} {q : Nat} (h : q ∉ ptrs cells) : nodeAt cells q = none := by
  induction cells with
  | nil => rfl
  | cons c cells ih =>
    rw [ptrs_cons, mem_cons, not_or] at h
    obtain ⟨hne, hrest⟩ := h
    unfold nodeAt
    rw [if_neg hne, ih hrest]

theorem exists_nodeAt {cells : List (Nat × β)} {q : Nat} (h : q ∈ ptrs cells) : ∃ n, nodeAt cells q = some n := by
  induction cells with
  | nil => cases h
  | cons c cells ih =>
    by_cases heq : q = c.1
    · rw [heq]
      exact ⟨_, nodeAt_cons_self _ _ _⟩
    · rw [nodeAt_cons_of_ne heq]
      exact ih ((mem_cons.mp h).resolve_left heq)

theorem nodeAt_append {pre post : List (Nat × β)} {q : Nat} (h : q ∉ ptrs pre) :
    nodeAt (pre ++ post) q = nodeAt post q := by
  induction pre with
  | nil => rfl
  | cons c pre ih =>
    rw [ptrs_cons, mem_cons, not_or] at h
    obtain ⟨hne, hrest⟩ := h
    rw [cons_append]
    unfold nodeAt
    rw [if_neg hne, ih hrest]
    cases post <;> rfl

/-- What the first node is does not depend on what is behind it. -/
theorem first_append_cons (pre : List (Nat × β)) (p : Nat) (v w : β) (post post' : List (Nat × β)) :
    first (pre ++ (p, v) :: post) = first (pre ++ (p, w) :: post') := by
  cases pre <;> rfl

/-- What is behind some nodes does not change them, but where the last one of them points. -/
theorem nodeAt_congr {pre post : List (Nat × β)} (post' : List (Nat × β)) {q : Nat}
    (hfirst : linkBehind pre = .next q → first post = first post') (hrest : nodeAt post q = nodeAt post' q) :
    nodeAt (pre ++ post) q = nodeAt (pre ++ post') q := by
  induction pre with
  | nil => exact hrest
  | cons c pre ih =>
    obtain ⟨p, v⟩ := c
    rw [cons_append, cons_append]
    unfold nodeAt
    cases pre with
    | nil =>
      by_cases heq : q = p
      · rw [if_pos heq, if_pos heq]
        have := hfirst (by simp [linkBehind, last, heq])
        rw [nil_append, nil_append, this]
      · rw [if_neg heq, if_neg heq]
        exact hrest
    | cons c' pre =>
      rw [linkBehind_cons_cons] at hfirst
      rw [ih hfirst]
      rfl

theorem mem_of_linkBehind {pre : List (Nat × β)} {p : Nat} (h : linkBehind pre = .next p) : p ∈ ptrs pre := by
  obtain rfl | ⟨pre', c, rfl⟩ := pre.eq_nil_or_concat
  · cases h
  · rw [concat_eq_append, linkBehind_snoc] at h
    obtain rfl := Link.next.inj h
    simp

theorem nodeAt_linkBehind {pre : List (Nat × β)} {p : Nat} (hlink : linkBehind pre = .next p)
    (hnodup : (ptrs pre).Nodup) (post post' : List (Nat × β)) :
    ∃ v, nodeAt (pre ++ post) p = some ⟨first post, v⟩ ∧ nodeAt (pre ++ post') p = some ⟨first post', v⟩ := by
  obtain rfl | ⟨pre', c, rfl⟩ := pre.eq_nil_or_concat
  · cases hlink
  · obtain ⟨p', v⟩ := c
    rw [concat_eq_append, linkBehind_snoc] at hlink
    obtain rfl := Link.next.inj hlink
    rw [concat_eq_append] at hnodup ⊢
    have hnot : p' ∉ ptrs pre' := by
      rw [ptrs_append, nodup_append] at hnodup
      intro hmem
      exact hnodup.2.2 p' hmem p' (by simp) rfl
    refine ⟨v, ?_, ?_⟩
    · rw [append_assoc, nodeAt_append hnot]
      exact if_pos rfl
    · rw [append_assoc, nodeAt_append hnot]
      exact if_pos rfl

/-! ## Section 3: Operations -/

section operations

variable {m : Memory β} {pre post : List (Nat × β)} {p : Nat} {v : β}

/-- The addresses in a list that is split at a node. -/
theorem Holds.not_mem (h : Holds m (pre ++ (p, v) :: post)) : p ∉ ptrs pre ∧ p ∉ ptrs post := by
  have hnodup := h.nodup
  rw [ptrs_append, ptrs_cons, nodup_append, nodup_cons] at hnodup
  obtain ⟨-, ⟨hpost, -⟩, hpre⟩ := hnodup
  exact ⟨fun hmem => hpre p hmem p mem_cons_self rfl, hpost⟩

theorem Holds.heap_eq (h : Holds m (pre ++ (p, v) :: post)) : m.heap p = some ⟨first post, v⟩ := by
  rw [h.heap, nodeAt_append h.not_mem.1]
  exact if_pos rfl

theorem Holds.nodup_left (h : Holds m (pre ++ post)) : (ptrs pre).Nodup := by
  have hnodup := h.nodup
  rw [ptrs_append] at hnodup
  exact hnodup.of_append_left

theorem Holds.deref (h : Holds m (pre ++ post)) : m.deref (linkBehind pre) = some (first post) := by
  cases hlink : linkBehind pre with
  | head =>
    obtain rfl | ⟨pre', c, rfl⟩ := pre.eq_nil_or_concat
    · exact congrArg some h.head
    · rw [concat_eq_append, linkBehind_snoc] at hlink
      cases hlink
  | next p =>
    obtain ⟨v, hnode, -⟩ := nodeAt_linkBehind hlink h.nodup_left post post
    unfold Memory.deref
    dsimp only
    rw [h.heap, hnode]
    rfl

theorem store_linkBehind (hnodup : (ptrs pre).Nodup) (hhead : m.head = first (pre ++ post))
    (hheap : ∀ q, linkBehind pre = .next q → m.heap q = nodeAt (pre ++ post) q) (post' : List (Nat × β)) :
    ∃ m', m.store (linkBehind pre) (first post') = some m' ∧ m'.head = first (pre ++ post') ∧
      ∀ q, m'.heap q = if linkBehind pre = .next q then nodeAt (pre ++ post') q else m.heap q := by
  cases hlink : linkBehind pre with
  | head =>
    obtain rfl | ⟨pre', c, rfl⟩ := pre.eq_nil_or_concat
    · refine ⟨_, rfl, rfl, ?_⟩
      intro q
      rw [if_neg (by simp)]
    · rw [concat_eq_append, linkBehind_snoc] at hlink
      cases hlink
  | next p =>
    obtain ⟨v, hnode, hnode'⟩ := nodeAt_linkBehind hlink hnodup post post'
    unfold Memory.store
    dsimp only
    rw [hheap p hlink, hnode]
    refine ⟨_, rfl, ?_, ?_⟩
    · cases pre with
      | nil => cases hlink
      | cons c pre => exact hhead
    · intro q
      dsimp only [Option.map_some]
      by_cases heq : q = p
      · rw [heq, update_self, if_pos rfl, hnode']
      · rw [update_of_ne heq, if_neg (fun hq => heq (Link.next.inj hq).symm)]

/-- A node gets another value. -/
theorem Holds.modify (h : Holds m (pre ++ (p, v) :: post)) (f : β → β) :
    ∃ m', m.modify p f = some m' ∧ Holds m' (pre ++ (p, f v) :: post) := by
  unfold Memory.modify
  rw [h.heap_eq]
  refine ⟨_, rfl, ?_, ?_, ?_⟩
  · rw [← first_append_cons pre p v (f v) post post]
    exact h.head
  · intro q
    dsimp only
    by_cases heq : q = p
    · rw [heq, update_self, nodeAt_append h.not_mem.1, nodeAt_cons_self]
    · rw [update_of_ne heq, h.heap]
      exact nodeAt_congr _ (fun _ => rfl) ((nodeAt_cons_of_ne heq _ _).trans (nodeAt_cons_of_ne heq _ _).symm)
  · have hnodup := h.nodup
    rw [ptrs_append, ptrs_cons] at hnodup ⊢
    exact hnodup

/-- A node is put behind some nodes. Its memory was not in use. -/
theorem Holds.insert (h : Holds m (pre ++ post)) (hfree : m.heap p = none) (v : β) :
    ∃ m', (m.write p ⟨first post, v⟩).store (linkBehind pre) (some p) = some m' ∧
      Holds m' (pre ++ (p, v) :: post) := by
  have hnot : p ∉ ptrs (pre ++ post) := by
    intro hmem
    obtain ⟨n, hn⟩ := exists_nodeAt hmem
    rw [h.heap, hn] at hfree
    cases hfree
  have hpre : p ∉ ptrs pre := fun hmem => hnot (by rw [ptrs_append]; exact mem_append_left _ hmem)
  obtain ⟨m', hstore, hhead, hheap⟩ := store_linkBehind (m := m.write p ⟨first post, v⟩)
    h.nodup_left h.head (by
      intro q hq
      have hne : q ≠ p := fun heq => hpre (heq ▸ mem_of_linkBehind hq)
      exact (update_of_ne hne _ _).trans (h.heap q)) ((p, v) :: post)
  refine ⟨m', hstore, hhead, ?_, ?_⟩
  · intro q
    rw [hheap]
    split
    · rfl
    · rename_i hne
      by_cases heq : q = p
      · rw [heq, nodeAt_append hpre, nodeAt_cons_self]
        exact update_self _ _ _
      · rw [nodeAt_congr post (fun hq => absurd hq hne) (nodeAt_cons_of_ne heq _ _), ← h.heap]
        exact update_of_ne heq _ _
  · have hnodup := h.nodup
    rw [ptrs_append] at hnot hnodup
    rw [ptrs_append, ptrs_cons]
    exact nodup_middle.mpr (nodup_cons.mpr ⟨hnot, hnodup⟩)

theorem Holds.remove (h : Holds m (pre ++ (p, v) :: post)) :
    ∃ m' m'', m.store (linkBehind pre) (first post) = some m' ∧ m'.free p = some m'' ∧
      Holds m'' (pre ++ post) := by
  obtain ⟨m', hstore, hhead, hheap⟩ := store_linkBehind h.nodup_left h.head (fun q _ => h.heap q) post
  have hlink : linkBehind pre ≠ .next p := fun hlink => h.not_mem.1 (mem_of_linkBehind hlink)
  refine ⟨m', { m' with heap := update m'.heap p none }, hstore, ?_, hhead, ?_, ?_⟩
  · unfold Memory.free
    rw [hheap, if_neg hlink, h.heap_eq]
    rfl
  · intro q
    dsimp only
    by_cases heq : q = p
    · rw [heq, update_self, nodeAt_append h.not_mem.1, nodeAt_of_not_mem h.not_mem.2]
    · rw [update_of_ne heq, hheap]
      split
      · rfl
      · rename_i hne
        rw [h.heap]
        exact nodeAt_congr _ (fun hq => absurd hq hne) (nodeAt_cons_of_ne heq _ _)
  · have hnodup := h.nodup
    rw [ptrs_append, ptrs_cons] at hnodup
    rw [ptrs_append]
    exact (nodup_cons.mp (nodup_middle.mp hnodup)).2

end operations

end LinkedList
