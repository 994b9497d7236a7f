import Emulab.Lib.BinaryHeap

/-! # The heap of ipassign

  The elements of a heap are records that know where they are, so that the
  weight of an element can be lowered, and an element removed, by a function
  that was returned when it was inserted. A removal puts the last element in
  the place of the removed one and lets it sink, but never rise.
-/

namespace Emulab.Dre

open BinaryHeap Function Option

/-! ## Section 1: The heap -/

inductive Exn where
  | EmptyHeap
  | BadIndex
  | Invalid_argument
deriving DecidableEq

/-- Where a record is in memory. -/
abbrev Ref := Nat

structure HeapData (α : Type) where
  key : Int
  value : α
  loc : Nat

structure Heap (α : Type) where
  arr : Nat → Ref
  /-- `Array.length arr` -/
  cap : Nat
  len : Nat
  default : α
  data : Ref → HeapData α
  /-- The records that have been made are those below. -/
  next : Ref
  cap_pos : 0 < cap
  len_le : len ≤ cap

variable {α : Type}

namespace Heap

def make_heap (default : α) : Heap α where
  arr _ := 0
  cap := 1
  len := 0
  default := default
  data _ := ⟨0, default, 0⟩
  next := 1
  cap_pos := Nat.one_pos
  len_le := Nat.zero_le 1

def left (i : Nat) : Nat := i * 2 + 1

def right (i : Nat) : Nat := i * 2 + 2

/-- `heap.arr.(i) <- d; heap.arr.(i).loc <- i` -/
def place (h : Heap α) (i : Nat) (d : Ref) : Heap α :=
  { h with
    arr := update h.arr i d
    data := update h.data d { h.data d with loc := i } }

/-- The key at a place of the array. -/
def keyAt (h : Heap α) (i : Nat) : Int := (h.data (h.arr i)).key

def heapify_up (h : Heap α) (d : Ref) (i : Nat) : Except Exn (Heap α) :=
  if h.len ≤ i then .error .BadIndex
  else if _hi : i = 0 then .ok (h.place i d)
  else if h.keyAt (parent i) ≤ (h.data d).key then .ok (h.place i d)
  else heapify_up (h.place i (h.arr (parent i))) d (parent i)
termination_by i
decreasing_by exact parent_lt (Nat.pos_of_ne_zero _hi)

/-- `c <= heap.len && heap.arr.(c).key < heap.arr.(i).key` -/
def below (h : Heap α) (c i : Nat) : Except Exn Bool :=
  if c ≤ h.len then
    if c < h.cap then .ok (decide (h.keyAt c < h.keyAt i)) else .error .Invalid_argument
  else .ok false

/-- The place with the least key of a place and its children. -/
def largest (h : Heap α) (i : Nat) : Except Exn Nat := do
  let c := if ← h.below (left i) i then left i else i
  return if ← h.below (right i) c then right i else c

theorem largest_le {h : Heap α} {i c : Nat} (hc : h.largest i = .ok c) : c = i ∨ i < c ∧ c ≤ h.len := by
  have hbelow : ∀ {c j}, h.below c j = .ok true → c ≤ h.len := by
    intro c j hb
    by_contra hnot
    simp [below, hnot] at hb
  unfold largest at hc
  cases hl : h.below (left i) i with
  | error e => simp [hl, bind, Except.bind] at hc
  | ok bl =>
    simp only [hl, bind, Except.bind] at hc
    cases hr : h.below (right i) (if bl = true then left i else i) with
    | error e => simp [hr] at hc
    | ok br =>
      simp only [hr, pure, Except.pure, Except.ok.injEq] at hc
      unfold left right at *
      cases br <;> cases bl <;> simp at hc hl hr
      · exact Or.inl hc.symm
      · have := hbelow hl
        omega
      · have := hbelow hr
        omega
      · have := hbelow hr
        omega

/-- The exchange of two elements. -/
def swap (h : Heap α) (i c : Nat) : Heap α := (h.place i (h.arr c)).place c (h.arr i)

def heapify (h : Heap α) (i : Nat) : Except Exn (Heap α) :=
  match _hc : h.largest i with
  | .error e => .error e
  | .ok c => if _hne : c ≠ i then heapify (h.swap i c) c else .ok h
termination_by h.len + 1 - i
decreasing_by
  have hlen : (h.swap i c).len = h.len := rfl
  have hle := largest_le _hc
  omega

def extract (h : Heap α) (index : Int) : Except Exn (Heap α) :=
  if index < 0 then .error .BadIndex
  else if h.len ≤ index then .error .BadIndex
  else if h.len < 1 then .error .EmptyHeap
  else
    let h := { h with len := h.len - 1, len_le := (Nat.sub_le _ _).trans h.len_le }
    if index ≠ h.len then (h.place index.toNat (h.arr h.len)).heapify index.toNat
    else .ok h

def extract_element (h : Heap α) (d : Ref) : Except Exn (Heap α) := h.extract (h.data d).loc

/-- `data.key <- weight` -/
def setKey (h : Heap α) (d : Ref) (weight : Int) : Heap α :=
  { h with data := update h.data d { h.data d with key := weight } }

def update_weight (h : Heap α) (d : Ref) (weight : Int) : Except Exn (Heap α) :=
  (h.setKey d weight).heapify_up d ((h.setKey d weight).data d).loc

/-- An array of twice the length, with one new record in all the places that are free. -/
def grow (h : Heap α) : Heap α :=
  { h with
    arr := fun i => if i < h.len then h.arr i else h.next
    cap := h.cap * 2
    data := update h.data h.next ⟨0, h.default, 0⟩
    next := h.next + 1
    cap_pos := Nat.mul_pos h.cap_pos Nat.two_pos
    len_le := h.len_le.trans (Nat.le_mul_of_pos_right _ Nat.two_pos) }

/-- A new record at the end of an array that has a free place. -/
def append (h : Heap α) (key : Int) (value : α) (hfree : h.len < h.cap) : Heap α :=
  { h with
    arr := update h.arr h.len h.next
    len := h.len + 1
    data := update h.data h.next ⟨key, value, h.len⟩
    next := h.next + 1
    len_le := hfree }

/-- The array is made longer if it is full. -/
def room (h : Heap α) : Heap α := if h.cap = h.len then h.grow else h

theorem room_free (h : Heap α) : h.room.len < h.room.cap := by
  have hpos := h.cap_pos
  have hle := h.len_le
  unfold room
  split
  · show h.len < h.cap * 2
    omega
  · omega

/-- The new record, and the heap with it. -/
def insert_obj (h : Heap α) (key : Int) (value : α) : Except Exn (Ref × Heap α) :=
  let d := h.room.next
  match (h.room.append key value h.room_free).update_weight d key with
  | .error e => .error e
  | .ok h' => .ok (d, h')

def extract_min (h : Heap α) : Except Exn (Heap α) := h.extract 0

def min (h : Heap α) : Except Exn (Int × α) :=
  if h.len = 0 then .error .EmptyHeap
  else .ok ((h.data (h.arr 0)).key, (h.data (h.arr 0)).value)

/-! ## Section 2: Elements and their places -/

def Member (h : Heap α) (d : Ref) : Prop := ∃ i < h.len, h.arr i = d

/-- Every element knows its place. -/
structure Linked (h : Heap α) : Prop where
  loc : ∀ i < h.len, (h.data (h.arr i)).loc = i
  made : ∀ i < h.len, h.arr i < h.next

/-- The same elements with the same keys, perhaps at other places. -/
structure Permutes (h h' : Heap α) : Prop where
  len : h'.len = h.len
  cap : h'.cap = h.cap
  next : h'.next = h.next
  key : ∀ d, (h'.data d).key = (h.data d).key
  value : ∀ d, (h'.data d).value = (h.data d).value
  member : ∀ d, h'.Member d ↔ h.Member d

theorem Permutes.trans {h h' h'' : Heap α} (h₁ : Permutes h h') (h₂ : Permutes h' h'') : Permutes h h'' where
  len := h₂.len.trans h₁.len
  cap := h₂.cap.trans h₁.cap
  next := h₂.next.trans h₁.next
  key d := (h₂.key d).trans (h₁.key d)
  value d := (h₂.value d).trans (h₁.value d)
  member d := (h₂.member d).trans (h₁.member d)

/-- An element is at its place only. -/
theorem Linked.arr_inj {h : Heap α} (hl : h.Linked) {i j : Nat} (hi : i < h.len) (hj : j < h.len)
    (heq : h.arr i = h.arr j) : i = j := by
  rw [← hl.loc i hi, ← hl.loc j hj, heq]

theorem Linked.arr_loc {h : Heap α} (hl : h.Linked) {d : Ref} (hd : h.Member d) :
    h.arr (h.data d).loc = d ∧ (h.data d).loc < h.len := by
  obtain ⟨i, hi, rfl⟩ := hd
  rw [hl.loc i hi]
  exact ⟨rfl, hi⟩

@[simp] theorem place_key (h : Heap α) (i : Nat) (d e : Ref) : ((h.place i d).data e).key = (h.data e).key := by
  unfold place
  by_cases he : e = d
  · subst he
    simp
  · simp [he]

@[simp] theorem place_value (h : Heap α) (i : Nat) (d e : Ref) :
    ((h.place i d).data e).value = (h.data e).value := by
  unfold place
  by_cases he : e = d
  · subst he
    simp
  · simp [he]

theorem place_loc_self (h : Heap α) (i : Nat) (d : Ref) : ((h.place i d).data d).loc = i := by
  simp [place]

theorem place_loc_of_ne (h : Heap α) (i : Nat) {d e : Ref} (he : e ≠ d) :
    ((h.place i d).data e).loc = (h.data e).loc := by
  simp [place, he]

theorem setKey_key (h : Heap α) (d e : Ref) (w : Int) :
    ((h.setKey d w).data e).key = if e = d then w else (h.data e).key := by
  unfold setKey
  by_cases he : e = d
  · subst he
    simp
  · simp [he]

theorem setKey_rest (h : Heap α) (d e : Ref) (w : Int) : ((h.setKey d w).data e).loc = (h.data e).loc ∧
      ((h.setKey d w).data e).value = (h.data e).value := by
  unfold setKey
  by_cases he : e = d
  · subst he
    simp
  · simp [he]

/-- The heap with an element at a place where it has not been written yet. -/
def put (h : Heap α) (i : Nat) (d : Ref) : Heap α := { h with arr := update h.arr i d }

variable {i : Nat}

theorem put_self {h : Heap α} {d : Ref} (h' : h.arr i = d) : h.put i d = h := by
  unfold put
  rw [← h', update_eq_self]

theorem swap_arr (h : Heap α) (i c : Nat) : (h.swap i c).arr = h.arr ∘ Equiv.swap c i := by
  rw [Equiv.comp_swap_eq_update]
  rfl

theorem swap_keyAt (h : Heap α) (i c : Nat) : (h.swap i c).keyAt = h.keyAt ∘ Equiv.swap i c := by
  funext j
  have hkey : ∀ d, ((h.swap i c).data d).key = (h.data d).key := by simp [swap]
  rw [keyAt, hkey, swap_arr, Equiv.swap_comm]
  rfl

/-- An exchange permutes the elements. -/
theorem member_comp_swap {arr : Nat → Ref} {n i c : Nat} (hi : i < n) (hc : c < n) (d : Ref) :
    (∃ j < n, (arr ∘ Equiv.swap i c) j = d) ↔ ∃ j < n, arr j = d := by
  have hlt : ∀ j < n, Equiv.swap i c j < n := by
    intro j hj
    rw [Equiv.swap_apply_def]
    split
    · exact hc
    · split
      · exact hi
      · exact hj
  constructor
  · intro ⟨j, hj, hd⟩
    exact ⟨_, hlt j hj, hd⟩
  · intro ⟨j, hj, hd⟩
    exact ⟨_, hlt j hj, by simpa using hd⟩

theorem swap_permutes {h : Heap α} {i c : Nat} (hi : i < h.len) (hc : c < h.len) : Permutes h (h.swap i c) where
  len := rfl
  cap := rfl
  next := rfl
  key d := by simp [swap]
  value d := by simp [swap]
  member d := by
    unfold Member
    rw [swap_arr]
    exact member_comp_swap hc hi d

theorem Linked.swap {h : Heap α} (hl : h.Linked) {i c : Nat} (hi : i < h.len) (hc : c < h.len)
    (hne : c ≠ i) : (h.swap i c).Linked where
  loc j hj := by
    have hrefs : h.arr c ≠ h.arr i := fun heq => hne (hl.arr_inj hc hi heq)
    rw [swap_arr, comp_apply]
    by_cases hji : j = i
    · subst hji
      rw [Equiv.swap_apply_right, Heap.swap, place_loc_of_ne _ _ hrefs, place_loc_self]
    · by_cases hjc : j = c
      · subst hjc
        rw [Equiv.swap_apply_left, Heap.swap, place_loc_self]
      · have hother : h.arr j ≠ h.arr i ∧ h.arr j ≠ h.arr c :=
          ⟨fun heq => hji (hl.arr_inj hj hi heq), fun heq => hjc (hl.arr_inj hj hc heq)⟩
        rw [Equiv.swap_apply_of_ne_of_ne hjc hji, Heap.swap, place_loc_of_ne _ _ hother.1,
          place_loc_of_ne _ _ hother.2]
        exact hl.loc j hj
  made j hj := by
    obtain ⟨j', hj', heq⟩ := ((swap_permutes hi hc).member _).mp ⟨j, hj, rfl⟩
    exact heq ▸ hl.made j' hj'

/-! ## Section 3: Sinking -/

/-- The slot behind the last element may be read, but it still holds the element that is sinking. -/
structure Sinking (h : Heap α) (i : Nat) : Prop where
  linked : h.Linked
  lt : i < h.len
  room : h.len < h.cap
  stale : h.arr h.len = h.arr i

theorem below_eq {h : Heap α} {i j c : Nat} (hs : Sinking h i) (hj : h.keyAt j ≤ h.keyAt i) :
    h.below c j = .ok (decide (c < h.len ∧ h.keyAt c < h.keyAt j)) := by
  unfold below
  by_cases hlt : c < h.len
  · rw [if_pos hlt.le, if_pos (hlt.trans hs.room)]
    simp [hlt]
  · by_cases heq : c = h.len
    · subst heq
      have hkey : h.keyAt h.len = h.keyAt i := by rw [keyAt, hs.stale, keyAt]
      rw [if_pos le_rfl, if_pos hs.room, hkey]
      simp [hj]
    · rw [if_neg (by omega)]
      simp [hlt]

/-- Either no child is below the element, or it is the least child that is found. -/
theorem largest_spec {h : Heap α} (hs : Sinking h i) : ∃ c, h.largest i = .ok c ∧
    ((c = i ∧ ∀ c', IsChild c' i → c' < h.len → h.keyAt i ≤ h.keyAt c') ∨
      (IsChild c i ∧ c < h.len ∧ h.keyAt c < h.keyAt i ∧
        ∀ c', IsChild c' i → c' < h.len → h.keyAt c ≤ h.keyAt c')) := by
  have hl : IsChild (left i) i := isChild_iff.mpr (Or.inl (by unfold left; omega))
  have hr : IsChild (right i) i := isChild_iff.mpr (Or.inr (by unfold right; omega))
  have hboth : ∀ c', IsChild c' i → c' = left i ∨ c' = right i := by
    intro c' hc'
    have := isChild_iff.mp hc'
    unfold left right
    omega
  have hleft := below_eq (c := left i) hs le_rfl
  unfold largest
  rw [hleft]
  by_cases hlt : left i < h.len ∧ h.keyAt (left i) < h.keyAt i
  · have hright := below_eq (c := right i) hs hlt.2.le
    by_cases hrt : right i < h.len ∧ h.keyAt (right i) < h.keyAt (left i)
    · refine ⟨right i, by simp [bind, Except.bind, pure, Except.pure, hlt, hrt, hright], Or.inr ⟨hr, hrt.1,
        hrt.2.trans hlt.2, fun c' hc' _ => ?_⟩⟩
      rcases hboth c' hc' with rfl | rfl
      · exact hrt.2.le
      · exact le_rfl
    · refine ⟨left i, by simp [bind, Except.bind, pure, Except.pure, hlt, hrt, hright], Or.inr ⟨hl, hlt.1, hlt.2,
        fun c' hc' hc => ?_⟩⟩
      rcases hboth c' hc' with rfl | rfl
      · exact le_rfl
      · exact not_lt.mp fun hlt' => hrt ⟨hc, hlt'⟩
  · have hright := below_eq (c := right i) hs le_rfl
    have hnotleft : left i < h.len → h.keyAt i ≤ h.keyAt (left i) :=
      fun hc => not_lt.mp fun hlt' => hlt ⟨hc, hlt'⟩
    by_cases hrt : right i < h.len ∧ h.keyAt (right i) < h.keyAt i
    · refine ⟨right i, by simp [bind, Except.bind, pure, Except.pure, hlt, hrt, hright], Or.inr ⟨hr, hrt.1, hrt.2,
        fun c' hc' hc => ?_⟩⟩
      rcases hboth c' hc' with rfl | rfl
      · exact hrt.2.le.trans (hnotleft hc)
      · exact le_rfl
    · refine ⟨i, by simp [bind, Except.bind, pure, Except.pure, hlt, hrt, hright], Or.inl ⟨rfl, fun c' hc' hc => ?_⟩⟩
      rcases hboth c' hc' with rfl | rfl
      · exact hnotleft hc
      · exact not_lt.mp fun hlt' => hrt ⟨hc, hlt'⟩

theorem Permutes.refl (h : Heap α) : Permutes h h :=
  ⟨rfl, rfl, rfl, fun _ => rfl, fun _ => rfl, fun _ => Iff.rfl⟩

/-- Unless a child is below it, the element stays. -/
theorem heapify_stays {h : Heap α} (hs : Sinking h i)
    (hstop : ∀ c, IsChild c i → c < h.len → h.keyAt i ≤ h.keyAt c) : h.heapify i = .ok h := by
  obtain ⟨c, hlargest, ⟨rfl, -⟩ | ⟨hc, hlen, hlt, -⟩⟩ := largest_spec hs
  · rw [heapify]
    split
    · next hc => rw [hlargest] at hc; cases hc
    · next hc =>
      rw [hlargest] at hc
      obtain rfl := Except.ok.inj hc
      simp
  · exact absurd hlt (not_lt.mpr (hstop c hc hlen))

theorem heapify_spec {h : Heap α} (hs : Sinking h i) (ho : DownHole h.len h.keyAt i) :
    ∃ h', h.heapify i = .ok h' ∧ h'.Linked ∧ Permutes h h' ∧ Ordered h'.len h'.keyAt := by
  induction hm : h.len - i using Nat.strong_induction_on generalizing h i with
  | h m ih =>
    obtain ⟨c, hlargest, ⟨rfl, hstop⟩ | ⟨hc, hlen, hlt, hmin⟩⟩ := largest_spec hs
    · exact ⟨h, heapify_stays hs hstop, hs.linked, .refl h, ho.ordered hstop⟩
    · have hperm := swap_permutes hs.lt hlen
      have hstep : (h.swap i c).heapify c = h.heapify i := by
        rw [heapify.eq_1 h i]
        split
        · next e he => rw [hlargest] at he; cases he
        · next c' he =>
          rw [hlargest] at he
          obtain rfl := Except.ok.inj he
          rw [dif_pos hc.lt.ne']
      have hstale : (h.swap i c).arr (h.swap i c).len = (h.swap i c).arr c := by
        show (h.swap i c).arr h.len = _
        rw [swap_arr, comp_apply, comp_apply, Equiv.swap_apply_left,
          Equiv.swap_apply_of_ne_of_ne hlen.ne' hs.lt.ne', hs.stale]
      have hs' : Sinking (h.swap i c) c := ⟨hs.linked.swap hs.lt hlen hc.lt.ne', hlen, hs.room, hstale⟩
      have ho' : DownHole (h.swap i c).len (h.swap i c).keyAt c := by
        rw [swap_keyAt]
        exact ho.step hc hlen hlt hmin
      have hm' : (h.swap i c).len - c < m := by
        have := hc.lt
        rw [hperm.len]
        omega
      obtain ⟨h', hrun, hl, hp, hord⟩ := ih _ hm' hs' ho' rfl
      exact ⟨h', hstep ▸ hrun, hl, hperm.trans hp, hord⟩

/-! ## Section 4: Rising -/

/-- All elements but the one that is rising know their place, and it is nowhere else. -/
structure Rising (h : Heap α) (d : Ref) (i : Nat) : Prop where
  lt : i < h.len
  loc : ∀ j < h.len, j ≠ i → (h.data (h.arr j)).loc = j ∧ h.arr j ≠ d
  made : ∀ j < h.len, (h.put i d).arr j < h.next

theorem Linked.rising {h : Heap α} (hl : h.Linked) (hi : i < h.len) : Rising h (h.arr i) i where
  lt := hi
  loc j hj hne := ⟨hl.loc j hj, fun heq => hne (hl.arr_inj hj hi heq)⟩
  made j hj := by
    have hput : (h.put i (h.arr i)).arr = h.arr := update_eq_self i h.arr
    rw [hput]
    exact hl.made j hj

theorem Rising.place_spec {h : Heap α} {d : Ref} (hr : Rising h d i) :
    (h.place i d).Linked ∧ Permutes (h.put i d) (h.place i d) ∧ (h.place i d).keyAt = (h.put i d).keyAt := by
  refine ⟨⟨fun j hj => ?_, hr.made⟩, ⟨rfl, rfl, rfl, by simp [put], by simp [put], fun _ => Iff.rfl⟩, ?_⟩
  · by_cases hji : j = i
    · subst hji
      have harr : (h.place j d).arr j = d := update_self ..
      rw [harr, place_loc_self]
    · have harr : (h.place i d).arr j = h.arr j := update_of_ne hji ..
      rw [harr, place_loc_of_ne _ _ (hr.loc j hj hji).2]
      exact (hr.loc j hj hji).1
  · funext j
    exact place_key h i d _

theorem Rising.step {h : Heap α} {d : Ref} (hr : Rising h d i) (hpos : 0 < i) :
    Rising (h.place i (h.arr (parent i))) d (parent i) ∧
    Permutes (h.put i d) ((h.place i (h.arr (parent i))).put (parent i) d) ∧
    ((h.place i (h.arr (parent i))).put (parent i) d).keyAt = (h.put i d).keyAt ∘ Equiv.swap i (parent i) := by
  have hp : parent i < i := parent_lt hpos
  have hpl : parent i < h.len := hp.trans hr.lt
  have hparent := hr.loc (parent i) hpl hp.ne
  have harr : ((h.place i (h.arr (parent i))).put (parent i) d).arr =
      (h.put i d).arr ∘ Equiv.swap (parent i) i := by
    rw [Equiv.comp_swap_eq_update]
    simp [put, place, update_of_ne hp.ne]
  have hperm : Permutes (h.put i d) ((h.place i (h.arr (parent i))).put (parent i) d) := by
    refine ⟨rfl, rfl, rfl, fun e => place_key h i _ e, fun e => place_value h i _ e, fun e => ?_⟩
    unfold Member
    rw [harr]
    exact member_comp_swap hpl hr.lt e
  refine ⟨⟨hpl, fun j hj hne => ?_, fun j hj => ?_⟩, hperm, ?_⟩
  · by_cases hji : j = i
    · subst hji
      have hat : (h.place j (h.arr (parent j))).arr j = h.arr (parent j) := update_self ..
      rw [hat, place_loc_self]
      exact ⟨rfl, hparent.2⟩
    · have hat : (h.place i (h.arr (parent i))).arr j = h.arr j := update_of_ne hji ..
      have hdiff : h.arr j ≠ h.arr (parent i) := by
        intro heq
        have hloc := (hr.loc j hj hji).1
        rw [heq, hparent.1] at hloc
        exact hne hloc.symm
      rw [hat, place_loc_of_ne _ _ hdiff]
      exact hr.loc j hj hji
  · obtain ⟨j', hj', heq⟩ := (hperm.member _).mp ⟨j, hj, rfl⟩
    exact heq ▸ hr.made j' hj'
  · funext j
    rw [Equiv.swap_comm]
    show ((h.place i (h.arr (parent i))).data _).key = _
    rw [place_key, harr]
    rfl

theorem heapify_up_spec {h : Heap α} {d : Ref} (hr : Rising h d i) (ho : UpHole h.len (h.put i d).keyAt i) :
    ∃ h', h.heapify_up d i = .ok h' ∧ h'.Linked ∧ Permutes (h.put i d) h' ∧ Ordered h'.len h'.keyAt := by
  have hhere : ∀ (h : Heap α) i, (h.put i d).keyAt i = (h.data d).key := by
    intro h i
    simp [keyAt, put]
  induction i using Nat.strong_induction_on generalizing h with
  | h i ih =>
    obtain ⟨hl, hperm, hkey⟩ := hr.place_spec
    have hdone : (0 < i → (h.put i d).keyAt (parent i) ≤ (h.put i d).keyAt i) →
        Ordered (h.place i d).len (h.place i d).keyAt := by
      intro hstop
      rw [hkey]
      exact ho.ordered hstop
    rw [heapify_up, if_neg (not_le.mpr hr.lt)]
    by_cases hi : i = 0
    · rw [dif_pos hi]
      exact ⟨_, rfl, hl, hperm, hdone fun hpos => absurd hi hpos.ne'⟩
    · have hpos : 0 < i := Nat.pos_of_ne_zero hi
      have hparent : (h.put i d).keyAt (parent i) = h.keyAt (parent i) := by
        simp [keyAt, put, update_of_ne (parent_lt hpos).ne]
      rw [dif_neg hi]
      by_cases hle : h.keyAt (parent i) ≤ (h.data d).key
      · rw [if_pos hle]
        refine ⟨_, rfl, hl, hperm, hdone fun _ => ?_⟩
        rwa [hparent, hhere]
      · rw [if_neg hle]
        obtain ⟨hr', hperm', hkey'⟩ := hr.step hpos
        have hup := ho.step hpos hr.lt (by rw [hparent, hhere]; exact not_le.mp hle)
        rw [← hkey'] at hup
        obtain ⟨h', hrun, hl', hp', hord⟩ := ih (parent i) (parent_lt hpos) hr' hup
        exact ⟨h', hrun, hl', hperm'.trans hp', hord⟩

/-! ## Section 5: What each function does to the elements -/

/-- The heap is in order and holds these elements. -/
structure Sound (h : Heap α) (held : Ref → Option (Int × α)) : Prop where
  linked : h.Linked
  ordered : Ordered h.len h.keyAt
  held : ∀ d k v, held d = some (k, v) ↔ h.Member d ∧ (h.data d).key = k ∧ (h.data d).value = v

variable {h : Heap α} {held : Ref → Option (Int × α)}

theorem sound_make_heap (default : α) : (make_heap default).Sound fun _ => none where
  linked := ⟨fun _ hi => absurd hi (Nat.not_lt_zero _), fun _ hi => absurd hi (Nat.not_lt_zero _)⟩
  ordered _ _ hi := absurd hi (Nat.not_lt_zero _)
  held d k v := by
    refine iff_of_false (fun h => by cases h) fun hm => ?_
    obtain ⟨⟨i, hi, -⟩, -⟩ := hm
    exact absurd hi (Nat.not_lt_zero _)

theorem Sound.member_iff (hs : h.Sound held) (d : Ref) : h.Member d ↔ (held d).isSome := by
  rw [isSome_iff_exists]
  constructor
  · exact fun hd => ⟨((h.data d).key, (h.data d).value), (hs.held d _ _).mpr ⟨hd, rfl, rfl⟩⟩
  · exact fun ⟨⟨k, v⟩, hd⟩ => ((hs.held d k v).mp hd).1

theorem Sound.held_arr (hs : h.Sound held) (hi : i < h.len) :
    held (h.arr i) = some (h.keyAt i, (h.data (h.arr i)).value) :=
  (hs.held _ _ _).mpr ⟨⟨i, hi, rfl⟩, rfl, rfl⟩

/-- Elements that are only put at other places are the same elements. -/
theorem sound_of_permutes {h' : Heap α} (hl : h'.Linked) (hp : Permutes h h')
    (ho : Ordered h'.len h'.keyAt) (hheld : ∀ d k v, held d = some (k, v) ↔
      h.Member d ∧ (h.data d).key = k ∧ (h.data d).value = v) : h'.Sound held where
  linked := hl
  ordered := ho
  held d k v := by rw [hheld, hp.member, hp.key, hp.value]

theorem Sound.update_weight (hs : h.Sound held) {d : Ref} {k w : Int} {v : α}
    (hd : held d = some (k, v)) (hw : w ≤ k) : ∃ h', h.update_weight d w = .ok h' ∧
      h'.Sound (update held d (some (w, v))) := by
  obtain ⟨hm, rfl, rfl⟩ := (hs.held d k v).mp hd
  obtain ⟨harr, hloc⟩ := hs.linked.arr_loc hm
  -- with the new key the element may be below its parent
  generalize hg : h.setKey d w = g
  have hkey : ∀ e, (g.data e).key = if e = d then w else (h.data e).key := fun e => hg ▸ setKey_key h d e w
  have hrest : ∀ e, (g.data e).loc = (h.data e).loc ∧ (g.data e).value = (h.data e).value :=
    fun e => hg ▸ setKey_rest h d e w
  have hgarr : g.arr = h.arr := by subst hg; rfl
  have hglen : g.len = h.len := by subst hg; rfl
  have hlinked : g.Linked := by
    constructor
    · intro i hi
      rw [hgarr, (hrest _).1]
      exact hs.linked.loc i (hglen ▸ hi)
    · intro i hi
      subst hg
      exact hs.linked.made i hi
  have hrise : Rising g d (h.data d).loc := by
    have := hlinked.rising (hglen.symm ▸ hloc)
    rwa [hgarr, harr] at this
  have hput : g.put (h.data d).loc d = g := put_self (by rw [hgarr, harr])
  have hat : ∀ j < h.len, j ≠ (h.data d).loc → g.keyAt j = h.keyAt j := by
    intro j hj hne
    rw [keyAt, hgarr, hkey, if_neg, keyAt]
    intro heq
    exact hne (hs.linked.arr_inj hj hloc (heq.trans harr.symm))
  have hhere : g.keyAt (h.data d).loc ≤ h.keyAt (h.data d).loc := by
    rw [keyAt, hgarr, harr, hkey, if_pos rfl, keyAt, harr]
    exact hw
  have hup : UpHole g.len (g.put (h.data d).loc d).keyAt (h.data d).loc := by
    rw [hput, hglen]
    have hold := hs.ordered.upHole (h.data d).loc
    constructor
    · intro j hpos hj hne
      rw [hat j hj hne]
      refine le_trans ?_ (hold.except j hpos hj hne)
      by_cases hp : parent j = (h.data d).loc
      · rw [hp]
        exact hhere
      · exact (hat _ ((parent_lt hpos).trans hj) hp).le
    · intro hpos c hc hcn
      rw [hat _ ((parent_lt hpos).trans hloc) (parent_lt hpos).ne, hat c hcn hc.lt.ne']
      exact hold.grand hpos c hc hcn
  obtain ⟨h', hrun, hl', hp', hord⟩ := heapify_up_spec hrise hup
  rw [hput] at hp'
  refine ⟨h', ?_, sound_of_permutes hl' hp' hord fun e k' v' => ?_⟩
  · rw [Heap.update_weight, hg, (hrest d).1, hrun]
  · have hmem : g.Member e ↔ h.Member e := by
      unfold Member
      rw [hgarr, hglen]
    rw [hmem, hkey, (hrest e).2]
    by_cases he : e = d
    · subst he
      simp [hm]
    · simp [he, hs.held]

theorem room_spec (hs : h.Sound held) : h.room.Sound held ∧ h.next ≤ h.room.next := by
  unfold room
  split
  · have hold : ∀ i < h.len, h.grow.arr i = h.arr i := fun i hi => if_pos hi
    have hdata : ∀ d, h.Member d → h.grow.data d = h.data d := by
      intro d hd
      obtain ⟨i, hi, rfl⟩ := hd
      exact update_of_ne (hs.linked.made i hi).ne ..
    have hmem : ∀ d, h.grow.Member d ↔ h.Member d := by
      intro d
      refine exists_congr fun i => and_congr_right fun hi => ?_
      rw [hold i hi]
    refine ⟨⟨⟨fun i hi => ?_, fun i hi => ?_⟩, fun i hpos hi => ?_, fun d k v => ?_⟩, Nat.le_succ _⟩
    · rw [hold i hi, hdata _ ⟨i, hi, rfl⟩]
      exact hs.linked.loc i hi
    · rw [hold i hi]
      exact (hs.linked.made i hi).trans (Nat.lt_succ_self _)
    · have hpl := (parent_lt hpos).trans hi
      rw [keyAt, keyAt, hold _ hpl, hold i hi, hdata _ ⟨_, hpl, rfl⟩, hdata _ ⟨i, hi, rfl⟩]
      exact hs.ordered i hpos hi
    · rw [hs.held, hmem]
      refine and_congr_right fun hd => ?_
      rw [hdata d hd]
  · exact ⟨hs, le_rfl⟩

/-- The new record is not among the elements that were there. -/
theorem Sound.insert_obj (hs : h.Sound held) (key : Int) (value : α) : ∃ d h',
    h.insert_obj key value = .ok (d, h') ∧ held d = none ∧ h'.Sound (update held d (some (key, value))) := by
  obtain ⟨hs', -⟩ := room_spec hs
  have hfree := h.room_free
  have hfresh : ∀ i < h.room.len, h.room.arr i ≠ h.room.next := fun i hi => (hs'.linked.made i hi).ne
  have hnone : held h.room.next = none := by
    rw [← not_isSome_iff_eq_none, ← hs'.member_iff]
    exact fun ⟨i, hi, heq⟩ => hfresh i hi heq
  generalize hg : h.room.append key value hfree = g
  have hglen : g.len = h.room.len + 1 := by subst hg; rfl
  have hlast : g.arr h.room.len = h.room.next := by subst hg; exact update_self ..
  have hold : ∀ i < h.room.len, g.arr i = h.room.arr i := by
    intro i hi
    subst hg
    exact update_of_ne hi.ne ..
  have hnew : g.data h.room.next = ⟨key, value, h.room.len⟩ := by
    subst hg
    exact update_self ..
  have hdata : ∀ d, d ≠ h.room.next → g.data d = h.room.data d := by
    intro d hd
    subst hg
    exact update_of_ne hd ..
  have hnext : g.next = h.room.next + 1 := by subst hg; rfl
  have hcases : ∀ i < g.len, i < h.room.len ∨ i = h.room.len := by omega
  have hlinked : g.Linked := by
    constructor
    · intro i hi
      rcases hcases i hi with hi | rfl
      · rw [hold i hi, hdata _ (hfresh i hi)]
        exact hs'.linked.loc i hi
      · rw [hlast, hnew]
    · intro i hi
      rw [hnext]
      rcases hcases i hi with hi | rfl
      · rw [hold i hi]
        exact (hs'.linked.made i hi).trans (Nat.lt_succ_self _)
      · rw [hlast]
        exact Nat.lt_succ_self _
  -- `update_weight` writes the key that the record has already, and lets it rise
  have hsame : g.setKey h.room.next key = g := by
    have hkey : ({ g.data h.room.next with key := key } : HeapData α) = g.data h.room.next := by
      rw [hnew]
    unfold setKey
    rw [hkey, update_eq_self]
  have hrise : Rising g h.room.next h.room.len := by
    have := hlinked.rising (i := h.room.len) (by omega)
    rwa [hlast] at this
  have hput : g.put h.room.len h.room.next = g := put_self hlast
  have hat : ∀ j < h.room.len, g.keyAt j = h.room.keyAt j := by
    intro j hj
    rw [keyAt, hold j hj, hdata _ (hfresh j hj), keyAt]
  have hup : UpHole g.len (g.put h.room.len h.room.next).keyAt h.room.len := by
    rw [hput]
    constructor
    · intro j hpos hj hne
      have hj' : j < h.room.len := by omega
      rw [hat j hj', hat _ ((parent_lt hpos).trans hj')]
      exact hs'.ordered j hpos hj'
    · intro _ c hc hcn
      exact absurd hc.lt (by omega)
  obtain ⟨h', hrun, hl', hp', hord⟩ := heapify_up_spec hrise hup
  rw [hput] at hp'
  refine ⟨h.room.next, h', ?_, hnone, sound_of_permutes hl' hp' hord fun d k v => ?_⟩
  · unfold Heap.insert_obj Heap.update_weight
    simp only [hg, hsame, hnew, hrun]
  · have hmem : g.Member d ↔ h.room.Member d ∨ d = h.room.next := by
      constructor
      · intro ⟨i, hi, heq⟩
        rcases hcases i hi with hi | rfl
        · exact Or.inl ⟨i, hi, (hold i hi).symm.trans heq⟩
        · exact Or.inr (heq.symm.trans hlast)
      · rintro (⟨i, hi, heq⟩ | rfl)
        · exact ⟨i, by omega, (hold i hi).trans heq⟩
        · exact ⟨_, by omega, hlast⟩
    rw [hmem]
    by_cases hd : d = h.room.next
    · subst hd
      simp [hnew]
    · rw [update_of_ne hd, hs'.held, hdata d hd]
      simp [hd]

theorem Sound.min (hs : h.Sound held) (hlen : 0 < h.len) : h.min = .ok (h.keyAt 0, (h.data (h.arr 0)).value) ∧
      ∀ d k v, held d = some (k, v) → h.keyAt 0 ≤ k := by
  refine ⟨if_neg hlen.ne', fun d k v hd => ?_⟩
  obtain ⟨⟨i, hi, rfl⟩, rfl, -⟩ := (hs.held d k v).mp hd
  exact hs.ordered.root_le i hi

theorem Sound.empty (hs : h.Sound held) (hlen : h.len = 0) (d : Ref) : held d = none := by
  rw [← not_isSome_iff_eq_none, ← hs.member_iff]
  exact fun ⟨i, hi, _⟩ => by omega

/-- The last element may take the place `i` of a removed one: it is that element, or is not below the
    parent of the place. -/
def Replaceable (h : Heap α) (i : Nat) : Prop :=
  i + 1 = h.len ∨ i = 0 ∨ h.keyAt (parent i) ≤ h.keyAt (h.len - 1)

/-- What is left when the element at `i` has been taken out and the last one put there. -/
def without (h : Heap α) (i : Nat) : Heap α :=
  let h' := { h with len := h.len - 1, len_le := (Nat.sub_le _ _).trans h.len_le }
  if i + 1 = h.len then h' else h'.place i (h.arr (h.len - 1))

theorem extract_eq (hi : i < h.len) :
    h.extract i = if i + 1 = h.len then .ok (h.without i) else (h.without i).heapify i := by
  have hneg : ¬ ((i : Int) < 0) := by omega
  have hlen : ¬ ((h.len : Int) ≤ i) := by omega
  have hone : ¬ (h.len < 1) := by omega
  unfold extract without
  rw [if_neg hneg, if_neg hlen, if_neg hone]
  by_cases hlast : i + 1 = h.len
  · have heq : ¬ ((i : Int) ≠ (h.len - 1 : Nat)) := by omega
    simp only [if_pos hlast, if_neg heq]
  · have hne : (i : Int) ≠ (h.len - 1 : Nat) := by omega
    simp only [if_neg hlast, if_pos hne, Int.toNat_natCast]

section Removal

variable (hs : h.Sound held) {i : Nat} (hi : i < h.len)
include hs hi

theorem without_linked : (h.without i).Linked ∧ (h.without i).len = h.len - 1 ∧
    (∀ j < h.len - 1, j ≠ i → (h.without i).keyAt j = h.keyAt j) ∧
    (i + 1 ≠ h.len → (h.without i).keyAt i = h.keyAt (h.len - 1)) ∧
    (∀ d k v, update held (h.arr i) none d = some (k, v) ↔
      (h.without i).Member d ∧ ((h.without i).data d).key = k ∧ ((h.without i).data d).value = v) := by
  have hinj : ∀ {j j'}, j < h.len → j' < h.len → h.arr j = h.arr j' → j = j' := hs.linked.arr_inj
  by_cases hlast : i + 1 = h.len
  · -- the last element goes, and nothing moves
    have hw : h.without i = { h with len := h.len - 1, len_le := (Nat.sub_le _ _).trans h.len_le } := if_pos hlast
    rw [hw]
    refine ⟨⟨fun j (hj : j < h.len - 1) => hs.linked.loc j (by omega),
      fun j (hj : j < h.len - 1) => hs.linked.made j (by omega)⟩, rfl, fun _ _ _ => rfl, fun hne => absurd hlast hne, fun d k v => ?_⟩
    have hmem : h.Member d ∧ d ≠ h.arr i ↔ ∃ j < h.len - 1, h.arr j = d := by
      constructor
      · rintro ⟨⟨j, hj, rfl⟩, hne⟩
        refine ⟨j, ?_, rfl⟩
        have : j ≠ i := fun heq => hne (heq ▸ rfl)
        omega
      · rintro ⟨j, hj, rfl⟩
        exact ⟨⟨j, by omega, rfl⟩, fun heq => by have := hinj (by omega) hi heq; omega⟩
    show _ ↔ (∃ j < h.len - 1, h.arr j = d) ∧ _
    rw [← hmem]
    by_cases hd : d = h.arr i
    · simp [hd]
    · rw [update_of_ne hd, hs.held]
      simp [hd]
  · have hw : h.without i =
        ({ h with len := h.len - 1, len_le := (Nat.sub_le _ _).trans h.len_le } : Heap α).place i
          (h.arr (h.len - 1)) := if_neg hlast
    have harr : ∀ j, j ≠ i → (h.without i).arr j = h.arr j := by
      intro j hj
      rw [hw]
      exact update_of_ne hj ..
    have hat : (h.without i).arr i = h.arr (h.len - 1) := by
      rw [hw]
      exact update_self ..
    have hkey : ∀ d, ((h.without i).data d).key = (h.data d).key := by
      intro d
      rw [hw, place_key]
    have hvalue : ∀ d, ((h.without i).data d).value = (h.data d).value := by
      intro d
      rw [hw, place_value]
    have hlen : (h.without i).len = h.len - 1 := by rw [hw]; rfl
    have hnext : (h.without i).next = h.next := by rw [hw]; rfl
    refine ⟨⟨fun j hj => ?_, fun j hj => ?_⟩, hlen, fun j _ hji => ?_, fun _ => ?_, fun d k v => ?_⟩
    · rw [hlen] at hj
      by_cases hji : j = i
      · subst hji
        rw [hat, hw, place_loc_self]
      · have hne : h.arr j ≠ h.arr (h.len - 1) := by
          intro heq
          have := hinj (by omega) (by omega) heq
          omega
        rw [harr j hji, hw, place_loc_of_ne _ _ hne]
        exact hs.linked.loc j (by omega)
    · rw [hlen] at hj
      rw [hnext]
      by_cases hji : j = i
      · rw [hji, hat]
        exact hs.linked.made _ (by omega)
      · rw [harr j hji]
        exact hs.linked.made _ (by omega)
    · rw [keyAt, hkey, harr j hji, keyAt]
    · rw [keyAt, hkey, hat, keyAt]
    · have hmem : (h.without i).Member d ↔ h.Member d ∧ d ≠ h.arr i := by
        constructor
        · intro ⟨j, hj, heq⟩
          rw [hlen] at hj
          by_cases hji : j = i
          · rw [hji, hat] at heq
            subst heq
            refine ⟨⟨_, by omega, rfl⟩, fun heq => ?_⟩
            have := hinj (by omega) hi heq
            omega
          · rw [harr j hji] at heq
            subst heq
            exact ⟨⟨j, by omega, rfl⟩, fun heq => hji (hinj (by omega) hi heq)⟩
        · rintro ⟨⟨j, hj, rfl⟩, hne⟩
          have hji : j ≠ i := fun heq => hne (heq ▸ rfl)
          by_cases hjl : j = h.len - 1
          · exact ⟨i, by omega, by rw [hat, hjl]⟩
          · exact ⟨j, by omega, harr j hji⟩
      rw [hmem, hkey, hvalue]
      by_cases hd : d = h.arr i
      · simp [hd]
      · rw [update_of_ne hd, hs.held]
        simp [hd]

theorem without_sinking (hlast : i + 1 ≠ h.len) : Sinking (h.without i) i := by
  obtain ⟨hl, hlen, -⟩ := without_linked hs hi
  have hle := h.len_le
  have hw : h.without i = ({ h with len := h.len - 1, len_le := (Nat.sub_le _ _).trans h.len_le } : Heap α).place i
        (h.arr (h.len - 1)) := if_neg hlast
  have hcap : (h.without i).cap = h.cap := by rw [hw]; rfl
  refine ⟨hl, by omega, by omega, ?_⟩
  rw [hlen, hw]
  show update h.arr i _ _ = update h.arr i _ i
  rw [update_self, update_of_ne (by omega)]

/-- A removal keeps the heap in order if the last element may take the place. -/
theorem extract_sound (hok : h.Replaceable i) : ∃ h', h.extract i = .ok h' ∧
    h'.Sound (update held (h.arr i) none) := by
  obtain ⟨hl, hlen, hother, hhere, hheld⟩ := without_linked hs hi
  rw [extract_eq hi]
  by_cases hlast : i + 1 = h.len
  · rw [if_pos hlast]
    refine ⟨_, rfl, hl, fun j hpos hj => ?_, hheld⟩
    rw [hlen] at hj
    have := parent_lt hpos
    rw [hother j hj (by omega), hother _ (by omega) (by omega)]
    exact hs.ordered j hpos (by omega)
  · rw [if_neg hlast]
    have hold := hs.ordered.upHole i
    have hdown : DownHole (h.without i).len (h.without i).keyAt i := by
      rw [hlen]
      constructor
      · intro j hpos hj hpi
        have hp := parent_lt hpos
        rw [hother _ (by omega) hpi]
        by_cases hji : j = i
        · subst hji
          rw [hhere hlast]
          exact (hok.resolve_left hlast).resolve_left hpos.ne'
        · rw [hother j hj hji]
          exact hs.ordered j hpos (by omega)
      · intro hpos c hc hcn
        have hp := parent_lt hpos
        rw [hother c hcn hc.lt.ne', hother _ (by omega) hp.ne]
        exact hold.grand hpos c hc (by omega)
    obtain ⟨h', hrun, hl', hp', hord⟩ := heapify_spec (without_sinking hs hi hlast) hdown
    exact ⟨h', hrun, sound_of_permutes hl' hp' hord hheld⟩

/-- Otherwise it stays below the parent of the place. -/
theorem extract_unordered (hnot : ¬ h.Replaceable i) : ∃ h', h.extract i = .ok h' ∧ ¬ Ordered h'.len h'.keyAt := by
  obtain ⟨hl, hlen, hother, hhere, hheld⟩ := without_linked hs hi
  simp only [Replaceable, not_or, not_le] at hnot
  obtain ⟨hlast, hzero, hbelow⟩ := hnot
  have hpos : 0 < i := Nat.pos_of_ne_zero hzero
  have hp := parent_lt hpos
  have hi' : i < h.len - 1 := by omega
  have hparent : (h.without i).keyAt (parent i) = h.keyAt (parent i) := hother _ (by omega) hp.ne
  rw [extract_eq hi, if_neg hlast]
  refine ⟨h.without i, heapify_stays (without_sinking hs hi hlast) fun c hc hcn => ?_, fun hord => ?_⟩
  · rw [hlen] at hcn
    rw [hhere hlast, hother c hcn hc.lt.ne']
    exact hbelow.le.trans ((hs.ordered.upHole i).grand hpos c hc (by omega))
  · have := hord i hpos (by omega)
    rw [hhere hlast, hparent] at this
    exact absurd hbelow (not_lt.mpr this)

end Removal

theorem Sound.extract_min (hs : h.Sound held) (hlen : 0 < h.len) : ∃ h', h.extract_min = .ok h' ∧
    h'.Sound (update held (h.arr 0) none) :=
  extract_sound hs hlen (Or.inr (Or.inl rfl))

end Heap

end Emulab.Dre
