import Mathlib.Tactic

/-! # Finite maps as sorted lists of intervals

  A partial map on numbers, stored as a list of closed intervals with a
  value each. In a sorted list the intervals are nonempty and each ends
  before the next begins, so an address lies in at most one of them.
-/

namespace IntervalMap

open List

/-- The addresses `start, ..., last`, all with the value `data`. -/
structure Entry (α : Type*) where
  start : Nat
  last : Nat
  data : α
deriving DecidableEq, Repr

variable {α : Type*}

/-- Address `a` lies in the interval. -/
def In (a : Nat) (r : Entry α) : Prop := r.start ≤ a ∧ a ≤ r.last

instance (a : Nat) (r : Entry α) : Decidable (In a r) := inferInstanceAs (Decidable (_ ∧ _))

/-- Nonempty intervals in ascending order, without overlap. -/
structure Sorted (l : List (Entry α)) : Prop where
  nonempty : ∀ r ∈ l, r.start ≤ r.last
  /-- Each interval ends before the later ones begin. -/
  disjoint : l.Pairwise fun r r' => r.last < r'.start

/-- The value of an address. -/
def get (l : List (Entry α)) (a : Nat) : Option α := (l.find? fun r => In a r).map (·.data)

/-- The number of addresses that have a value. -/
def size (l : List (Entry α)) : Nat := (l.map fun r => r.last + 1 - r.start).sum

/-! ## Sorted lists -/

theorem sorted_nil : Sorted ([] : List (Entry α)) := ⟨by simp, List.Pairwise.nil⟩

theorem sorted_append {l l' : List (Entry α)} :
    Sorted (l ++ l') ↔ Sorted l ∧ Sorted l' ∧ ∀ r ∈ l, ∀ r' ∈ l', r.last < r'.start := by
  constructor
  · intro h
    obtain ⟨h1, h2, h3⟩ := pairwise_append.mp h.disjoint
    exact ⟨⟨fun r hr => h.nonempty r (mem_append_left _ hr), h1⟩,
      ⟨fun r hr => h.nonempty r (mem_append_right _ hr), h2⟩, h3⟩
  · rintro ⟨h1, h2, h3⟩
    refine ⟨fun r hr => ?_, pairwise_append.mpr ⟨h1.disjoint, h2.disjoint, h3⟩⟩
    rcases mem_append.mp hr with hr | hr
    · exact h1.nonempty r hr
    · exact h2.nonempty r hr

variable {l : List (Entry α)}

theorem sorted_cons {r : Entry α} :
    Sorted (r :: l) ↔ r.start ≤ r.last ∧ (∀ r' ∈ l, r.last < r'.start) ∧ Sorted l := by
  constructor
  · intro h
    obtain ⟨h1, h2⟩ := pairwise_cons.mp h.disjoint
    exact ⟨h.nonempty r mem_cons_self, h1, ⟨fun r' hr' => h.nonempty r' (mem_cons_of_mem _ hr'), h2⟩⟩
  · rintro ⟨h1, h2, h3⟩
    refine ⟨fun r' hr' => ?_, pairwise_cons.mpr ⟨h2, h3.disjoint⟩⟩
    rcases mem_cons.mp hr' with rfl | hr'
    · exact h1
    · exact h3.nonempty r' hr'

/-- A range in front of another one ends before it begins. -/
theorem Sorted.last_lt {pre mid post : List (Entry α)} {r r' : Entry α}
    (h : Sorted (pre ++ r :: (mid ++ r' :: post))) : r.last < r'.start := by
  obtain ⟨_, h, _⟩ := sorted_append.mp h
  exact (sorted_cons.mp h).2.1 r' (by simp)

/-- An address lies in one interval at most. -/
theorem Sorted.unique (h : Sorted l) {r r' : Entry α} (hr : r ∈ l)
    (hr' : r' ∈ l) {a : Nat} (ha : In a r) (ha' : In a r') : r = r' := by
  obtain ⟨pre, post, rfl⟩ := append_of_mem hr
  obtain ⟨_, hpost, hpre⟩ := sorted_append.mp h
  have h1 := ha.1
  have h2 := ha.2
  have h3 := ha'.1
  have h4 := ha'.2
  rcases mem_append.mp hr' with hmem | hmem
  · have := hpre r' hmem r mem_cons_self
    omega
  · rcases mem_cons.mp hmem with rfl | hmem
    · rfl
    · have := (sorted_cons.mp hpost).2.1 r' hmem
      omega

/-! ## The represented map -/

/-- Some interval of the list gives `a` the value `d`. -/
def Has (l : List (Entry α)) (a : Nat) (d : α) : Prop := ∃ r ∈ l, In a r ∧ r.data = d

@[simp] theorem has_nil (a : Nat) (d : α) : ¬Has [] a d := by simp [Has]

@[simp] theorem has_cons (r : Entry α) (l : List (Entry α)) (a : Nat) (d : α) :
    Has (r :: l) a d ↔ In a r ∧ r.data = d ∨ Has l a d := by
  simp [Has]

@[simp] theorem has_append (l l' : List (Entry α)) (a : Nat) (d : α) :
    Has (l ++ l') a d ↔ Has l a d ∨ Has l' a d := by
  simp [Has, or_and_right, exists_or]

/-- In a sorted list it does not matter which interval is found first. -/
theorem get_eq_some_iff (h : Sorted l) {a : Nat} {d : α} : get l a = some d ↔ Has l a d := by
  induction l with
  | nil => simp [get]
  | cons r l ih =>
    obtain ⟨h1, h2, h3⟩ := sorted_cons.mp h
    rw [has_cons]
    by_cases hin : In a r
    · have hrest : ¬Has l a d := by
        rintro ⟨r', hr', hin', -⟩
        have := h2 r' hr'
        have := hin.2
        have := hin'.1
        omega
      simp [get, hin, hrest]
    · rw [← ih h3]
      simp [get, hin]

theorem get_eq_none_iff {a : Nat} : get l a = none ↔ ∀ r ∈ l, ¬In a r := by
  simp [get]

/-- The value of an address is determined by the intervals that give it one. -/
theorem get_ext {a : Nat} {v : Option α} (h : Sorted l) (hv : ∀ d, Has l a d ↔ v = some d) : get l a = v := by
  apply Option.ext
  intro d
  rw [get_eq_some_iff h, hv d]

/-- Intervals after `a` say nothing about `a`. -/
theorem not_has_of_lt {a : Nat} {d : α} (h : ∀ r ∈ l, a < r.start) : ¬Has l a d := by
  rintro ⟨r, hr, hin, -⟩
  have := h r hr
  have := hin.1
  omega

/-- Intervals before `a` say nothing about `a`. -/
theorem not_has_of_gt {a : Nat} {d : α} (h : ∀ r ∈ l, r.last < a) : ¬Has l a d := by
  rintro ⟨r, hr, hin, -⟩
  have := h r hr
  have := hin.2
  omega

/-! ## Sizes -/

@[simp] theorem size_nil : size ([] : List (Entry α)) = 0 := rfl

@[simp] theorem size_cons (r : Entry α) (l : List (Entry α)) :
    size (r :: l) = (r.last + 1 - r.start) + size l := by
  simp [size]

@[simp] theorem size_append (l l' : List (Entry α)) : size (l ++ l') = size l + size l' := by
  simp [size]

theorem size_le (h : Sorted l) {lo hi : Nat}
    (hlo : ∀ r ∈ l, lo ≤ r.start) (hhi : ∀ r ∈ l, r.last ≤ hi) : size l ≤ hi + 1 - lo := by
  induction l generalizing lo with
  | nil => simp
  | cons r l ih =>
    obtain ⟨h1, h2, h3⟩ := sorted_cons.mp h
    have hr := hlo r mem_cons_self
    have hr' := hhi r mem_cons_self
    have hrest : ∀ r' ∈ l, r.last + 1 ≤ r'.start := h2
    have := ih h3 hrest fun r' hr' => hhi r' (mem_cons_of_mem _ hr')
    rw [size_cons]
    omega

/-! ## Assigning a free range -/

/-- `l'` represents the map of `l` with `d` at the free addresses `lo, ..., hi`. -/
structure Assigned (l l' : List (Entry α)) (lo hi : Nat) (d : α) : Prop where
  sorted : Sorted l'
  has : ∀ a e, Has l' a e ↔ (lo ≤ a ∧ a ≤ hi) ∧ d = e ∨ Has l a e
  /-- The number of addresses grows by the length of the range. -/
  size : size l' = size l + (hi + 1 - lo)
  /-- The new list stays within the bounds of the old one and of the range. -/
  within : ∀ b c, (∀ r ∈ l, b ≤ r.start ∧ r.last ≤ c) → b ≤ lo → hi ≤ c → ∀ r ∈ l', b ≤ r.start ∧ r.last ≤ c

section Assign

variable {pre post : List (Entry α)} {lo hi : Nat}

/-- The intervals between two parts of the list, and the range, become one interval. -/
theorem assigned_replace {d : α} (mid : List (Entry α)) (r : Entry α)
    (hs : Sorted (pre ++ (mid ++ post))) (hr : r.start ≤ r.last)
    (before : ∀ q ∈ pre, q.last < r.start) (behind : ∀ q ∈ post, r.last < q.start)
    (hhas : ∀ a e, In a r ∧ r.data = e ↔ (lo ≤ a ∧ a ≤ hi) ∧ d = e ∨ Has mid a e)
    (hsize : r.last + 1 - r.start = size mid + (hi + 1 - lo))
    (hwithin : ∀ b c, (∀ q ∈ mid, b ≤ q.start ∧ q.last ≤ c) → b ≤ lo → hi ≤ c →
      b ≤ r.start ∧ r.last ≤ c) : Assigned (pre ++ (mid ++ post)) (pre ++ r :: post) lo hi d := by
  obtain ⟨h1, h2, h3⟩ := sorted_append.mp hs
  obtain ⟨-, h4, -⟩ := sorted_append.mp h2
  refine ⟨?_, fun a e => ?_, ?_, fun b c hw hb hc q hq => ?_⟩
  · refine sorted_append.mpr ⟨h1, sorted_cons.mpr ⟨hr, behind, h4⟩, fun q hq q' hq' => ?_⟩
    rcases mem_cons.mp hq' with rfl | hq'
    · exact before q hq
    · exact h3 q hq q' (mem_append_right _ hq')
  · simp only [has_append, has_cons, hhas]
    grind
  · simp only [size_append, size_cons]
    omega
  · rcases mem_append.mp hq with hq | hq
    · exact hw q (mem_append_left _ hq)
    · rcases mem_cons.mp hq with rfl | hq
      · exact hwithin b c (fun q' hq' =>
          hw q' (mem_append_right _ (mem_append_left _ hq'))) hb hc
      · exact hw q (mem_append_right _ (mem_append_right _ hq))

/-- A range between two parts of the list becomes an interval of its own. -/
theorem assigned_insert (hs : Sorted (pre ++ post)) (hle : lo ≤ hi)
    (before : ∀ r ∈ pre, r.last < lo) (behind : ∀ r ∈ post, hi < r.start) (d : α) :
    Assigned (pre ++ post) (pre ++ ⟨lo, hi, d⟩ :: post) lo hi d :=
  assigned_replace [] ⟨lo, hi, d⟩ hs hle before behind (by simp [In]) (by simp)
    fun _ _ _ hb hc => ⟨hb, hc⟩

/-- A range that begins where an interval ends, and has its value, extends it. -/
theorem assigned_prev {p : Entry α} (hs : Sorted (pre ++ p :: post)) (hle : lo ≤ hi)
    (habut : p.last + 1 = lo) (behind : ∀ r ∈ post, hi < r.start) :
    Assigned (pre ++ p :: post) (pre ++ { p with last := hi } :: post) lo hi p.data := by
  obtain ⟨-, h2, h3⟩ := sorted_append.mp hs
  obtain ⟨hp, -, -⟩ := sorted_cons.mp h2
  refine assigned_replace [p] { p with last := hi } hs (by simp only; omega)
    (fun r hr => h3 r hr p mem_cons_self) behind (fun a e => ?_)
    (by simp only [size_cons, size_nil]; omega)
    fun b c hw _ hc => ⟨(hw p mem_cons_self).1, hc⟩
  have hin : In a { p with last := hi } ↔ (lo ≤ a ∧ a ≤ hi) ∨ In a p := by
    simp only [In]
    omega
  simp only [has_cons, has_nil, or_false, hin, or_and_right]

/-- A range that ends where an interval begins, and has its value, extends it. -/
theorem assigned_next {n : Entry α} (hs : Sorted (pre ++ n :: post)) (hle : lo ≤ hi)
    (habut : hi + 1 = n.start) (before : ∀ r ∈ pre, r.last < lo) :
    Assigned (pre ++ n :: post) (pre ++ { n with start := lo } :: post) lo hi n.data := by
  obtain ⟨hn, hbehind, -⟩ := sorted_cons.mp (sorted_append.mp hs).2.1
  refine assigned_replace [n] { n with start := lo } hs (by simp only; omega) before hbehind
    (fun a e => ?_) (by simp only [size_cons, size_nil]; omega)
    fun b c hw hb _ => ⟨hb, (hw n mem_cons_self).2⟩
  have hin : In a { n with start := lo } ↔ (lo ≤ a ∧ a ≤ hi) ∨ In a n := by
    simp only [In]
    omega
  simp only [has_cons, has_nil, or_false, hin, or_and_right]

/-- A range that fills the gap between two intervals of the same value joins them. -/
theorem assigned_join {p n : Entry α} (hs : Sorted (pre ++ p :: n :: post)) (hle : lo ≤ hi)
    (hprev : p.last + 1 = lo) (hnext : hi + 1 = n.start) (hdata : p.data = n.data) :
    Assigned (pre ++ p :: n :: post) (pre ++ { p with last := n.last } :: post) lo hi p.data := by
  obtain ⟨-, h2, h3⟩ := sorted_append.mp hs
  obtain ⟨hp, -, h4⟩ := sorted_cons.mp h2
  obtain ⟨hn, hbehind, -⟩ := sorted_cons.mp h4
  refine assigned_replace [p, n] { p with last := n.last } hs (by simp only; omega)
    (fun r hr => h3 r hr p mem_cons_self) hbehind (fun a e => ?_)
    (by simp only [size_cons, size_nil]; omega) fun b c hw _ _ =>
      ⟨(hw p mem_cons_self).1, (hw n (mem_cons_of_mem _ mem_cons_self)).2⟩
  have hin : In a { p with last := n.last } ↔ (lo ≤ a ∧ a ≤ hi) ∨ In a p ∨ In a n := by
    simp only [In]
    omega
  simp only [has_cons, has_nil, or_false, hin, ← hdata, or_and_right]

end Assign

/-! ## Removing a range of one interval -/

/-- `l'` represents the map of `l` without the addresses `lo, ..., hi`. -/
structure Removed (l l' : List (Entry α)) (lo hi : Nat) : Prop where
  sorted : Sorted l'
  has : ∀ a e, Has l' a e ↔ Has l a e ∧ ¬(lo ≤ a ∧ a ≤ hi)
  /-- The number of addresses shrinks by the length of the range. -/
  size : size l' + (hi + 1 - lo) = size l
  /-- The new list stays within the bounds of the old one. -/
  within : ∀ b c, (∀ r ∈ l, b ≤ r.start ∧ r.last ≤ c) → ∀ r ∈ l', b ≤ r.start ∧ r.last ≤ c

/-- Replacing an interval by what remains of it, given as a sorted list of intervals inside it. -/
theorem removed_replace {pre post : List (Entry α)} {r : Entry α} (rest : List (Entry α))
    (lo hi : Nat) (hs : Sorted (pre ++ r :: post)) (hlo : r.start ≤ lo) (hhi : hi ≤ r.last)
    (hrest : Sorted rest) (hwithin : ∀ r' ∈ rest, r.start ≤ r'.start ∧ r'.last ≤ r.last)
    (hhas : ∀ a e, Has rest a e ↔ (In a r ∧ ¬(lo ≤ a ∧ a ≤ hi)) ∧ r.data = e)
    (hsize : size rest + (hi + 1 - lo) = r.last + 1 - r.start) :
    Removed (pre ++ r :: post) (pre ++ rest ++ post) lo hi := by
  obtain ⟨h1, h2, h3⟩ := sorted_append.mp hs
  obtain ⟨hr, h4, h5⟩ := sorted_cons.mp h2
  refine ⟨?_, fun a e => ?_, ?_, fun b c hw r' hr' => ?_⟩
  · rw [append_assoc]
    refine sorted_append.mpr ⟨h1, sorted_append.mpr ⟨hrest, h5, fun q hq r' hr' => ?_⟩,
      fun q hq r' hr' => ?_⟩
    · have := h4 r' hr'
      have := (hwithin q hq).2
      omega
    · rcases mem_append.mp hr' with hr' | hr'
      · have := h3 q hq r mem_cons_self
        have := (hwithin r' hr').1
        omega
      · exact h3 q hq r' (mem_cons_of_mem _ hr')
  · -- the other intervals do not meet the range
    have hpre : Has pre a e → ¬(lo ≤ a ∧ a ≤ hi) := by
      rintro ⟨q, hq, hin, -⟩
      have := h3 q hq r mem_cons_self
      have := hin.2
      omega
    have hpost : Has post a e → ¬(lo ≤ a ∧ a ≤ hi) := by
      rintro ⟨q, hq, hin, -⟩
      have := h4 q hq
      have := hin.1
      omega
    simp only [has_append, has_cons, hhas]
    grind
  · simp only [size_append, size_cons]
    omega
  · have hwr := hw r (mem_append_right _ mem_cons_self)
    rcases mem_append.mp hr' with hr' | hr'
    · rcases mem_append.mp hr' with hr' | hr'
      · exact hw r' (mem_append_left _ hr')
      · have := hwithin r' hr'
        omega
    · exact hw r' (mem_append_right _ (mem_cons_of_mem _ hr'))

section Remove

variable {pre post : List (Entry α)} {r : Entry α} {lo hi : Nat} (hs : Sorted (pre ++ r :: post)) (hle : lo ≤ hi)
include hs hle

/-- The range is the whole interval. -/
theorem removed_all (hlo : r.start = lo) (hhi : r.last = hi) : Removed (pre ++ r :: post) (pre ++ post) lo hi := by
  have h := removed_replace [] lo hi hs (by omega) (by omega) sorted_nil (by simp) (fun a e => by
      have hin : ¬(In a r ∧ ¬(lo ≤ a ∧ a ≤ hi)) := by
        simp only [In]
        omega
      simp only [has_nil, hin, false_and])
    (by simp only [size_nil]; omega)
  simpa using h

theorem removed_front (hlo : r.start = lo) (hhi : hi < r.last) :
    Removed (pre ++ r :: post) (pre ++ { r with start := hi + 1 } :: post) lo hi := by
  have h := removed_replace [{ r with start := hi + 1 }] lo hi hs (by omega) (by omega)
    (sorted_cons.mpr ⟨by simp only; omega, by simp, sorted_nil⟩)
    (fun r' hr' => by obtain rfl := mem_singleton.mp hr'; simp only; omega)
    (fun a e => by
      have hin : In a { r with start := hi + 1 } ↔ In a r ∧ ¬(lo ≤ a ∧ a ≤ hi) := by
        simp only [In]
        omega
      simp only [has_cons, has_nil, or_false, hin])
    (by simp only [size_cons, size_nil]; omega)
  simpa using h

theorem removed_back (hlo : r.start < lo) (hhi : r.last = hi) :
    Removed (pre ++ r :: post) (pre ++ { r with last := lo - 1 } :: post) lo hi := by
  have h := removed_replace [{ r with last := lo - 1 }] lo hi hs (by omega) (by omega)
    (sorted_cons.mpr ⟨by simp only; omega, by simp, sorted_nil⟩)
    (fun r' hr' => by obtain rfl := mem_singleton.mp hr'; simp only; omega)
    (fun a e => by
      have hin : In a { r with last := lo - 1 } ↔ In a r ∧ ¬(lo ≤ a ∧ a ≤ hi) := by
        simp only [In]
        omega
      simp only [has_cons, has_nil, or_false, hin])
    (by simp only [size_cons, size_nil]; omega)
  simpa using h

/-- The range is strictly inside the interval. -/
theorem removed_middle (hlo : r.start < lo) (hhi : hi < r.last) :
    Removed (pre ++ r :: post) (pre ++ { r with last := lo - 1 } :: { r with start := hi + 1 } :: post) lo hi := by
  have h := removed_replace [{ r with last := lo - 1 }, { r with start := hi + 1 }] lo hi hs (by omega) (by omega)
    (sorted_cons.mpr ⟨by simp only; omega,
      fun r' hr' => by obtain rfl := mem_singleton.mp hr'; simp only; omega,
      sorted_cons.mpr ⟨by simp only; omega, by simp, sorted_nil⟩⟩)
    (fun r' hr' => by
      rcases mem_cons.mp hr' with rfl | hr'
      · simp only
        omega
      · obtain rfl := mem_singleton.mp hr'
        simp only
        omega)
    (fun a e => by
      have hin : In a { r with last := lo - 1 } ∨ In a { r with start := hi + 1 } ↔
          In a r ∧ ¬(lo ≤ a ∧ a ≤ hi) := by
        simp only [In]
        omega
      simp only [has_cons, has_nil, or_false, ← hin, or_and_right])
    (by simp only [size_cons, size_nil]; omega)
  simpa using h

end Remove

end IntervalMap
