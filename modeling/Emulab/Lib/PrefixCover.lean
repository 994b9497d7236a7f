import Emulab.Lib.PrefixTree

/-! # Fewest prefixes

  The keys at the ends of a tree are to be led to values, each by the longest of the
  prefixes in a set. Where every node of the tree has the values that are best for the keys
  below it, and stays with the value from above whenever it can, the announcements of the
  tree are the fewest prefixes that do so. Keys that are not in the tree may be led anywhere.
-/

namespace PrefixTree

open List

variable {δ η : Type}

/-! ## Section 1: Covers -/

/-- The longest prefix of a key leads it to `x`, and so does `h` if it has no prefix. -/
structure Leads (S : Finset (List Bool × η)) (h : η) (k : List Bool) (x : η) : Prop where
  longest : ∀ e ∈ S, e.1 <+: k → (∀ e' ∈ S, e'.1 <+: k → e'.1.length ≤ e.1.length) → e.2 = x
  inherited : (∀ e ∈ S, ¬e.1 <+: k) → h = x

variable [DecidableEq η]

/-- The prefixes that begin with a bit, without it. -/
def under (b : Bool) (S : Finset (List Bool × η)) : Finset (List Bool × η) :=
  (S.filter fun e => e.1.head? = some b).image fun e => (e.1.tail, e.2)

@[simp] theorem mem_under {b : Bool} {S : Finset (List Bool × η)} {e : List Bool × η} :
    e ∈ under b S ↔ (b :: e.1, e.2) ∈ S := by
  simp only [under, Finset.mem_image, Finset.mem_filter]
  constructor
  · rintro ⟨⟨path, x⟩, ⟨hmem, hhead⟩, rfl⟩
    cases path with
    | nil => simp at hhead
    | cons b' path =>
      obtain rfl : b' = b := by simpa using hhead
      exact hmem
  · intro hmem
    exact ⟨(b :: e.1, e.2), ⟨hmem, rfl⟩, rfl⟩

/-- A prefix begins with one of the bits, or is empty. -/
theorem card_under_add (S : Finset (List Bool × η)) :
    (under false S).card + (under true S).card + (S.filter fun e => e.1 = []).card ≤ S.card := by
  have hfalse : (under false S).card ≤ (S.filter fun e => e.1.head? = some false).card := Finset.card_image_le
  have htrue : (under true S).card ≤ (S.filter fun e => e.1.head? = some true).card := Finset.card_image_le
  have hdisjoint : Disjoint (S.filter fun e => e.1.head? = some false)
      (S.filter fun e => e.1.head? = some true) := by
    rw [Finset.disjoint_filter]
    intro e _ hhead
    simp [hhead]
  have hdisjoint' : Disjoint ((S.filter fun e => e.1.head? = some false) ∪
      (S.filter fun e => e.1.head? = some true)) (S.filter fun e => e.1 = []) := by
    rw [Finset.disjoint_left]
    intro e he hnil
    have hnil := (Finset.mem_filter.mp hnil).2
    simp [hnil] at he
  have hsub : ((S.filter fun e => e.1.head? = some false) ∪
      (S.filter fun e => e.1.head? = some true)) ∪ (S.filter fun e => e.1 = []) ⊆ S := by
    intro e he
    simp only [Finset.mem_union, Finset.mem_filter] at he
    tauto
  have hcard := Finset.card_le_card hsub
  rw [Finset.card_union_of_disjoint hdisjoint', Finset.card_union_of_disjoint hdisjoint] at hcard
  omega

section

variable {S : Finset (List Bool × η)} {h h' x : η} {b : Bool} {k : List Bool}

theorem Leads.under_longest (hleads : Leads S h (b :: k) x) : ∀ e ∈ under b S, e.1 <+: k →
    (∀ e' ∈ under b S, e'.1 <+: k → e'.1.length ≤ e.1.length) → e.2 = x := by
  intro e he hpre hlongest
  refine hleads.longest (b :: e.1, e.2) (mem_under.mp he) (cons_prefix_cons.mpr ⟨rfl, hpre⟩) ?_
  rintro ⟨path, y⟩ he' hpre'
  cases path with
  | nil => simp
  | cons b' path =>
    obtain ⟨rfl, hpath⟩ := cons_prefix_cons.mp hpre'
    simpa using hlongest (path, y) (mem_under.mpr he') hpath

/-- Without a prefix for all keys the value from above goes on to the children. -/
theorem Leads.of_no_root (hleads : Leads S h (b :: k) x) (hroot : ∀ y, ([], y) ∉ S) : Leads (under b S) h k x where
  longest := hleads.under_longest
  inherited := by
    intro hnone
    apply hleads.inherited
    rintro ⟨path, y⟩ he hpre
    cases path with
    | nil => exact hroot y he
    | cons b' path =>
      obtain ⟨rfl, hpath⟩ := cons_prefix_cons.mp hpre
      exact hnone (path, y) (mem_under.mpr he) hpath

/-- A prefix for all keys takes the place of the value from above. -/
theorem Leads.of_root (hleads : Leads S h (b :: k) x) (hroot : ([], h') ∈ S) : Leads (under b S) h' k x where
  longest := hleads.under_longest
  inherited := by
    intro hnone
    apply hleads.longest _ hroot nil_prefix
    rintro ⟨path, y⟩ he hpre
    cases path with
    | nil => exact le_refl _
    | cons b' path =>
      obtain ⟨rfl, hpath⟩ := cons_prefix_cons.mp hpre
      exact absurd hpath (hnone (path, y) (mem_under.mpr he))

end

/-! ## Section 2: Sets of values -/

/-- The values that are best for two sets of keys, where `A` and `B` are best for each. -/
def join (A B : Finset η) : Finset η := if (A ∩ B).Nonempty then A ∩ B else A ∪ B

/-- Whether keys with a set of best values need a prefix of their own. -/
def misses (h : η) (A : Finset η) : Nat := if A.Nonempty ∧ h ∉ A then 1 else 0

/-- Whether one of two sets of keys needs a prefix, whatever comes from above. -/
def conflict (A B : Finset η) : Nat :=
  if A.Nonempty ∧ B.Nonempty ∧ ¬(A ∩ B).Nonempty then 1 else 0

@[simp] theorem join_empty (A : Finset η) : join A ∅ = A := by simp [join]

@[simp] theorem empty_join (B : Finset η) : join ∅ B = B := by simp [join]

theorem join_nonempty {A B : Finset η} (h : A.Nonempty ∨ B.Nonempty) : (join A B).Nonempty := by
  unfold join
  split_ifs with hboth
  · exact hboth
  · exact Finset.union_nonempty.mpr h

@[simp] theorem misses_empty (h : η) : misses h ∅ = 0 := by simp [misses]

@[simp] theorem conflict_empty (B : Finset η) : conflict ∅ B = 0 := by simp [conflict]

theorem misses_le_one (h : η) (A : Finset η) : misses h A ≤ 1 := by
  unfold misses
  split_ifs <;> omega

theorem misses_of_mem {h : η} {A : Finset η} (hmem : h ∈ A) : misses h A = 0 := by
  simp [misses, hmem]

theorem misses_of_notMem {h : η} {A : Finset η} (hA : A.Nonempty) (hmem : h ∉ A) : misses h A = 1 := by
  simp [misses, hA, hmem]

/-- What two sets of keys need is at least what they need together. -/
theorem conflict_add_misses_le (h : η) (A B : Finset η) :
    conflict A B + misses h (join A B) ≤ misses h A + misses h B := by
  rcases A.eq_empty_or_nonempty with rfl | hA
  · simp [join]
  rcases B.eq_empty_or_nonempty with rfl | hB
  · simp [join, conflict]
  by_cases hboth : (A ∩ B).Nonempty
  · -- a value that is missed by the set for both is missed by one of them
    rw [conflict, if_neg (fun hc => hc.2.2 hboth), join, if_pos hboth]
    have hle := misses_le_one h (A ∩ B)
    by_cases ha : h ∈ A
    · by_cases hb : h ∈ B
      · rw [misses_of_mem (Finset.mem_inter.mpr ⟨ha, hb⟩)]
        omega
      · rw [misses_of_notMem hB hb]
        omega
    · rw [misses_of_notMem hA ha]
      omega
  · -- no value is in both, so that every value is missed by one of them
    have hnot : h ∈ A → h ∉ B := fun ha hb => hboth ⟨h, Finset.mem_inter.mpr ⟨ha, hb⟩⟩
    rw [conflict, if_pos ⟨hA, hB, hboth⟩, join, if_neg hboth]
    have hle := misses_le_one h (A ∪ B)
    by_cases ha : h ∈ A
    · rw [misses_of_notMem hB (hnot ha), misses_of_mem (Finset.mem_union_left B ha)]
      omega
    · rw [misses_of_notMem hA ha]
      by_cases hb : h ∈ B
      · rw [misses_of_mem (Finset.mem_union_right A hb)]
        omega
      · rw [misses_of_notMem hB hb]
        omega

/-- A best value for both leaves a prefix only where the sets have nothing in common. -/
theorem misses_add_of_mem_join {h : η} {A B : Finset η} (hmem : h ∈ join A B) :
    misses h A + misses h B = conflict A B := by
  rcases A.eq_empty_or_nonempty with rfl | hA
  · have hB : h ∈ B := by simpa [join] using hmem
    simp [misses_of_mem hB]
  rcases B.eq_empty_or_nonempty with rfl | hB
  · have hA : h ∈ A := by simpa [join] using hmem
    simp [misses_of_mem hA, conflict]
  by_cases hboth : (A ∩ B).Nonempty
  · rw [join, if_pos hboth, Finset.mem_inter] at hmem
    simp [misses_of_mem hmem.1, misses_of_mem hmem.2, conflict, hboth]
  · have hnot : h ∈ A → h ∉ B := fun ha hb => hboth ⟨h, Finset.mem_inter.mpr ⟨ha, hb⟩⟩
    rw [join, if_neg hboth, Finset.mem_union] at hmem
    rw [conflict, if_pos ⟨hA, hB, hboth⟩]
    rcases hmem with ha | hb
    · rw [misses_of_mem ha, misses_of_notMem hB (hnot ha)]
    · rw [misses_of_mem hb, misses_of_notMem hA (fun ha => hnot ha hb)]

/-! ## Section 3: Trees with sets -/

section

variable (set : δ → Finset η)

def top : PrefixTree δ → Finset η
  | null => ∅
  | node d _ _ => set d

omit [DecidableEq η] in
@[simp] theorem top_null : top set null = ∅ := rfl

omit [DecidableEq η] in
@[simp] theorem top_node (d : δ) (z o : PrefixTree δ) : top set (node d z o) = set d := rfl

/-- Every node has the best values for the keys below it. -/
def Joined : PrefixTree δ → Prop
  | null => True
  | node d z o => (set d).Nonempty ∧
      (z ≠ null ∨ o ≠ null → set d = join (top set z) (top set o)) ∧ Joined z ∧ Joined o

/-- How many prefixes are needed below a root whose own value is a best one. -/
def fewest : PrefixTree δ → Nat
  | null => 0
  | node _ z o => fewest z + fewest o + conflict (top set z) (top set o)

/-- A choice is a best value, and the one from above whenever that is a best value. -/
def Keeps (pick : η → δ → η) : Prop :=
  ∀ h d, (set d).Nonempty → pick h d ∈ set d ∧ (h ∈ set d → pick h d = h)

variable {set} {pick : η → δ → η} {P : Nat → δ → Prop}

theorem length_announce (hpick : Keeps set pick) {t : PrefixTree δ} (ht : t.Joined set) (h : η) :
    (announce pick h t).length = fewest set t + misses h (top set t) := by
  induction t generalizing h with
  | null => simp [announce, fewest]
  | node d z o ihz iho =>
    obtain ⟨hne, hjoin, hz, ho⟩ := ht
    obtain ⟨hmem, hkeep⟩ := hpick h d hne
    -- the node itself is announced if the value from above is not a best one
    have hown : (if pick h d = h then [] else [(([] : List Bool), pick h d)]).length = misses h (set d) := by
      by_cases hh : h ∈ set d
      · rw [if_pos (hkeep hh), misses_of_mem hh]
        rfl
      · have hnew : pick h d ≠ h := fun heq => hh (heq ▸ hmem)
        rw [if_neg hnew, misses_of_notMem hne hh]
        rfl
    have hchildren : misses (pick h d) (top set z) + misses (pick h d) (top set o) =
        conflict (top set z) (top set o) := by
      by_cases hchild : z ≠ null ∨ o ≠ null
      · exact misses_add_of_mem_join (hjoin hchild ▸ hmem)
      · rw [not_or, not_not, not_not] at hchild
        obtain ⟨rfl, rfl⟩ := hchild
        simp
    rw [announce, length_append, length_append, hown, length_map, length_map, ihz hz, iho ho, fewest, top_node]
    omega

/-- No cover of the keys has fewer prefixes. -/
theorem fewest_le_card {n : Nat} {t : PrefixTree δ} (hgrown : t.Grown P n) (ht : t.Joined set)
    {S : Finset (List Bool × η)} {h : η}
    (hleads : ∀ k d, k.length = n → t.at? k = some d → ∃ x, set d = {x} ∧ Leads S h k x) :
    fewest set t + misses h (top set t) ≤ S.card := by
  induction n generalizing t S h with
  | zero =>
    cases t with
    | null => simp [fewest]
    | node d z o =>
      obtain ⟨-, rfl, rfl⟩ := hgrown
      obtain ⟨x, hset, hlead⟩ := hleads [] d rfl rfl
      simp only [fewest, top_null, top_node, hset, conflict_empty]
      by_cases hx : h = x
      · simp [hx, misses]
      · -- the only key has a prefix, as its value is not that from above
        have hpos : 0 < S.card := by
          rw [Finset.card_pos, Finset.nonempty_iff_ne_empty]
          rintro rfl
          exact hx (hlead.inherited (by simp))
        have := misses_le_one h {x}
        omega
  | succ n ih =>
    cases t with
    | null => simp [fewest]
    | node d z o =>
      obtain ⟨-, hchild, hgz, hgo⟩ := hgrown
      obtain ⟨-, hjoin, hz, ho⟩ := ht
      have hcard := card_under_add S
      simp only [fewest, top_node, hjoin hchild]
      by_cases hroot : ∃ h', ([], h') ∈ S
      · -- a prefix for all keys is one more, and its value goes on to the children
        obtain ⟨h', hroot⟩ := hroot
        have hboth := conflict_add_misses_le h' (top set z) (top set o)
        have hzero := ih hgz hz (S := under false S) (h := h') fun k d' hk hat =>
          (hleads (false :: k) d' (by simpa using hk) hat).imp fun x hx =>
            ⟨hx.1, hx.2.of_root hroot⟩
        have hone := ih hgo ho (S := under true S) (h := h') fun k d' hk hat =>
          (hleads (true :: k) d' (by simpa using hk) hat).imp fun x hx =>
            ⟨hx.1, hx.2.of_root hroot⟩
        have hown : 0 < (S.filter fun e => e.1 = []).card :=
          Finset.card_pos.mpr ⟨_, Finset.mem_filter.mpr ⟨hroot, rfl⟩⟩
        have := misses_le_one h (join (top set z) (top set o))
        omega
      · have hroot' : ∀ y, ([], y) ∉ S := fun y hy => hroot ⟨y, hy⟩
        have hboth := conflict_add_misses_le h (top set z) (top set o)
        have hzero := ih hgz hz (S := under false S) (h := h) fun k d' hk hat =>
          (hleads (false :: k) d' (by simpa using hk) hat).imp fun x hx =>
            ⟨hx.1, hx.2.of_no_root hroot'⟩
        have hone := ih hgo ho (S := under true S) (h := h) fun k d' hk hat =>
          (hleads (true :: k) d' (by simpa using hk) hat).imp fun x hx =>
            ⟨hx.1, hx.2.of_no_root hroot'⟩
        omega

theorem length_announce_le_card {n : Nat} {t : PrefixTree δ} (hgrown : t.Grown P n)
    (ht : t.Joined set) (hpick : Keeps set pick) {S : Finset (List Bool × η)} {h : η}
    (hleads : ∀ k d, k.length = n → t.at? k = some d → ∃ x, set d = {x} ∧ Leads S h k x) :
    (announce pick h t).length ≤ S.card := by
  rw [length_announce hpick ht]
  exact fewest_le_card hgrown ht hleads

end

end PrefixTree
