import Emulab.Ipassign.HierarchicalAssigner
import Mathlib.Data.Nat.Size

/-! # The prefixes of the LANs

  A block that is divided has more bits than its partitions need, so that the
  LANs in it have room, whatever the partitioner does. A block that is not
  divided any further need not have any bits to spare: the prefixes are still
  disjoint, but the addresses of the hosts may not fit.
-/

namespace Emulab.Ipassign

open Outcome Subnet Function List Option

/-! ## Section 1: Bits -/

theorem countLoop_eq {fuel count : Nat} (h : count ≤ fuel) : countLoop fuel count = Nat.size count := by
  induction fuel generalizing count with
  | zero =>
    obtain rfl : count = 0 := Nat.le_zero.mp h
    rw [Nat.size_zero]
    rfl
  | succ fuel ih =>
    unfold countLoop
    by_cases hzero : count = 0
    · rw [hzero, Nat.size_zero]
      rfl
    · have hhalf : count >>> 1 = count / 2 := Nat.shiftRight_eq_div_pow count 1
      rw [if_pos hzero, hhalf, ih (by omega)]
      conv_rhs => rw [← Nat.bit_testBit_zero_shiftRight_one count]
      rw [Nat.size_bit (by rwa [Nat.bit_testBit_zero_shiftRight_one]), hhalf]

theorem countToBlockBit_eq (count : Nat) : countToBlockBit count = Nat.size count :=
  countLoop_eq (le_refl _)

theorem lt_two_pow_countToBlockBit (count : Nat) : count < 2 ^ countToBlockBit count := by
  rw [countToBlockBit_eq]
  exact Nat.lt_size_self count

theorem countToBlockBit_mono {m n : Nat} (h : m ≤ n) : countToBlockBit m ≤ countToBlockBit n := by
  rw [countToBlockBit_eq, countToBlockBit_eq]
  exact Nat.size_le_size h

theorem countToBlockBit_pos {n : Nat} (h : 0 < n) : 0 < countToBlockBit n := by
  rw [countToBlockBit_eq]
  exact Nat.size_pos.mpr h

theorem shiftLeft_ok {width x n : Nat} (hn : n < width) (hx : x * 2 ^ n < 2 ^ width) :
    shiftLeft width x n = .ok (x <<< n) := by
  unfold shiftLeft
  rw [if_pos (by omega), Int.toNat_natCast, Nat.mod_eq_of_lt (by rwa [Nat.shiftLeft_eq])]

/-! ## Section 2: Entries -/

/-- The number of bits that a prefix leaves. -/
def NetworkEntry.bits (e : NetworkEntry) : Nat := (32 - e.maskSize).toNat

/-- The prefix covers an address. -/
def NetworkEntry.Covers (e : NetworkEntry) (n : Nat) : Prop := Subnet.Covers e.bits e.start n

structure Within (bits subnet : Nat) (e : NetworkEntry) : Prop where
  mask : e.maskSize ≤ 32
  le : e.bits ≤ bits
  aligned : 2 ^ e.bits ∣ e.start
  start : Subnet.Covers bits subnet e.start

theorem Within.covers {bits subnet : Nat} {e : NetworkEntry} (h : Within bits subnet e) {n : Nat}
    (hn : e.Covers n) : Subnet.Covers bits subnet n := covers_of_le h.le h.start hn

theorem Within.trans {bits subnet bits' subnet' : Nat} {e : NetworkEntry} (h : Within bits subnet e)
    (hle : bits ≤ bits') (hstart : Subnet.Covers bits' subnet' subnet) : Within bits' subnet' e where
  mask := h.mask
  le := h.le.trans hle
  aligned := h.aligned
  start := covers_of_le hle hstart h.start

theorem setNetworkEntry_ok {start bits : Nat} (hbits : bits < 32) (haligned : 2 ^ bits ∣ start)
    (hlt : start < 2 ^ 32) :
    setNetworkEntry start (totalBits - bits) = .ok { start := start, maskSize := totalBits - bits } := by
  have hshift : (32 : Int) - (totalBits - bits) = bits := by
    unfold totalBits
    omega
  have hmask : maskSizeToMask (totalBits - bits) = .ok ((2 ^ 32 - 1) <<< bits % 2 ^ 32) := by
    unfold maskSizeToMask shiftLeft
    rw [hshift, if_pos (by omega), Int.toNat_natCast]
  unfold setNetworkEntry
  rw [hmask]
  show (if start &&& (2 ^ 32 - 1) <<< bits % 2 ^ 32 ≠ start then _ else _) = _
  rw [if_neg (not_not.mpr (and_mask haligned hlt))]

theorem setLeaf_ok {start bits : Nat} (hbits : bits < 32) (haligned : 2 ^ bits ∣ start)
    (hlt : start < 2 ^ 32) (leaves : Leaves) (lan : Nat) :
    setLeaf leaves lan start bits =
      .ok (update leaves lan (some { start := start, maskSize := totalBits - bits })) := by
  unfold setLeaf
  rw [setNetworkEntry_ok hbits haligned hlt]
  rfl

theorem bits_entry (start bits : Nat) :
    NetworkEntry.bits { start := start, maskSize := totalBits - bits } = bits := by
  unfold NetworkEntry.bits totalBits
  simp only
  omega

/-! ## Section 3: Loops that write apart from each other -/

theorem foldlM_apart {α : Type} {step : Leaves → α → Except Fault Leaves} (part : α → List Nat)
    (Q : α → Leaves → Prop)
    (hQ : ∀ a leaves leaves', (∀ lan ∈ part a, leaves' lan = leaves lan) → Q a leaves → Q a leaves')
    {l : List α} (hstep : ∀ a ∈ l, ∀ leaves, Yields False (step leaves a) fun leaves' =>
      (∀ lan ∉ part a, leaves' lan = leaves lan) ∧ Q a leaves')
    (hapart : l.Pairwise fun a b => (part a).Disjoint (part b)) (leaves : Leaves) :
    Yields False (l.foldlM step leaves) fun leaves' =>
      (∀ lan, (∀ a ∈ l, lan ∉ part a) → leaves' lan = leaves lan) ∧ ∀ a ∈ l, Q a leaves' := by
  induction l generalizing leaves with
  | nil => exact ⟨fun _ _ => rfl, by simp⟩
  | cons a l ih =>
    obtain ⟨hfirst, hrest⟩ := pairwise_cons.mp hapart
    rw [foldlM_cons]
    refine (hstep a mem_cons_self leaves).bind fun leaves₁ ⟨hframe, ha⟩ => ?_
    refine (ih (fun b hb => hstep b (mem_cons_of_mem _ hb)) hrest leaves₁).imp
      fun leaves₂ ⟨hframe', hl⟩ => ⟨fun lan hlan => ?_, fun b hb => ?_⟩
    · rw [hframe' lan fun b hb => hlan b (mem_cons_of_mem _ hb), hframe lan (hlan a mem_cons_self)]
    · rcases mem_cons.mp hb with rfl | hb
      · exact hQ b leaves₁ leaves₂ (fun lan hlan => hframe' lan fun b' hb' hmem =>
          hfirst b' hb' hlan hmem) ha
      · exact hl b hb

/-! ## Section 4: Partitions -/

/-- A partitioner labels every LAN with one of the partitions. -/
def Labels (part : Partitioner) : Prop :=
  ∀ b, (part b).labels.length = b.partitionList.length ∧ ∀ l ∈ (part b).labels, l < (part b).count

section

variable {part : Partitioner} {lans : List (List Nat)} {b : Block}

def component (part : Partitioner) (b : Block) (i : Nat) : List Nat :=
  ((b.partitionList.zip (part b).labels).filter fun x => x.2 = i).map (·.1)

theorem components_eq (part : Partitioner) (b : Block) :
    components part b = (List.range (part b).count).map (component part b) := rfl

theorem mem_zipIdx_components {c : List Nat} {i : Nat} :
    (c, i) ∈ (components part b).zipIdx ↔ i < (part b).count ∧ c = component part b i := by
  rw [mem_zipIdx_iff_getElem?, components_eq, List.getElem?_map]
  simp only [map_eq_some_iff, List.getElem?_eq_some_iff, length_range, getElem_range]
  constructor
  · rintro ⟨j, ⟨hi, rfl⟩, rfl⟩
    exact ⟨hi, rfl⟩
  · rintro ⟨hi, rfl⟩
    exact ⟨i, ⟨hi, rfl⟩, rfl⟩

theorem mem_component {lan i : Nat} :
    lan ∈ component part b i ↔ (lan, i) ∈ b.partitionList.zip (part b).labels := by
  unfold component
  simp only [List.mem_map, mem_filter, decide_eq_true_eq, Prod.exists, exists_and_right, exists_eq_right]

theorem zip_fst (hpart : Labels part) (b : Block) :
    (b.partitionList.zip (part b).labels).map (·.1) = b.partitionList :=
  map_fst_zip (hpart b).1.ge

theorem component_sublist (hpart : Labels part) (b : Block) (i : Nat) :
    (component part b i).Sublist b.partitionList := by
  have hsub : (component part b i).Sublist ((b.partitionList.zip (part b).labels).map (·.1)) :=
    filter_sublist.map _
  rw [zip_fst hpart] at hsub
  exact hsub

theorem exists_component (hpart : Labels part) {lan : Nat} (hlan : lan ∈ b.partitionList) :
    ∃ i < (part b).count, lan ∈ component part b i := by
  rw [← zip_fst hpart] at hlan
  obtain ⟨⟨lan', i⟩, hmem, rfl⟩ := List.mem_map.mp hlan
  exact ⟨i, (hpart b).2 i (of_mem_zip hmem).2, mem_component.mpr hmem⟩

theorem component_disjoint (hpart : Labels part) (hnodup : b.partitionList.Nodup) {i j : Nat}
    (hne : i ≠ j) : (component part b i).Disjoint (component part b j) := by
  intro lan hi hj
  rw [mem_component] at hi hj
  rw [← zip_fst hpart] at hnodup
  have heq := inj_on_of_nodup_map hnodup hi hj rfl
  exact hne (Prod.mk.inj heq).2

theorem tally_spec (lans : List (List Nat)) (b : Block) (i : Nat) :
    (tally lans (part b) b.partitionList i).1 = (component part b i).length ∧
      ∀ lan ∈ component part b i, hostCount lans lan ≤ (tally lans (part b) b.partitionList i).2 := by
  have hfold : ∀ (l : List (Nat × Nat)) (t : Nat → Nat × Nat),
      let t' := l.foldl (fun t (x : Nat × Nat) => update t x.2
        ((t x.2).1 + 1, max (t x.2).2 (hostCount lans x.1))) t
      (t' i).1 = (t i).1 + (l.filter fun x => x.2 = i).length ∧ (t i).2 ≤ (t' i).2 ∧
        ∀ x ∈ l, x.2 = i → hostCount lans x.1 ≤ (t' i).2 := by
    intro l
    induction l with
    | nil => simp
    | cons x l ih =>
      intro t
      obtain ⟨hcount, hmono, hmax⟩ := ih (update t x.2
        ((t x.2).1 + 1, max (t x.2).2 (hostCount lans x.1)))
      simp only [foldl_cons]
      by_cases hx : x.2 = i
      · subst hx
        rw [update_self] at hcount hmono
        rw [filter_cons_of_pos (by simp), length_cons]
        refine ⟨by rw [hcount]; simp only; omega, (le_max_left _ _).trans hmono, ?_⟩
        intro y hy hyi
        rcases mem_cons.mp hy with rfl | hy
        · exact (le_max_right _ _).trans hmono
        · exact hmax y hy hyi
      · rw [update_of_ne (Ne.symm hx)] at hcount hmono
        rw [filter_cons_of_neg (by simpa using hx)]
        refine ⟨hcount, hmono, ?_⟩
        intro y hy hyi
        rcases mem_cons.mp hy with rfl | hy
        · exact absurd hyi hx
        · exact hmax y hy hyi
  obtain ⟨hcount, -, hmax⟩ := hfold (b.partitionList.zip (part b).labels) fun _ => (0, 0)
  refine ⟨?_, fun lan hlan => ?_⟩
  · unfold component
    rw [length_map]
    simpa [tally] using hcount
  · exact hmax (lan, i) (mem_component.mp hlan) rfl

theorem fits_component (hfit : partitioningIsOk part lans b = true) {i : Nat} (hi : i < (part b).count) :
    (countToBlockBit (part b).count + countToBlockBit (component part b i).length : Int) ≤ b.blockBits ∧
      ∀ lan ∈ component part b i, (countToBlockBit (part b).count + countToBlockBit (component part b i).length +
          countToBlockBit (hostCount lans lan) : Int) ≤ b.blockBits := by
  unfold partitioningIsOk at hfit
  have hfit := all_eq_true.mp hfit i (mem_range.mpr hi)
  obtain ⟨hlength, hmax⟩ := @tally_spec part lans b i
  simp only [hlength, Bool.not_eq_true', decide_eq_false_iff_not, not_lt] at hfit
  refine ⟨by omega, fun lan hlan => ?_⟩
  have := countToBlockBit_mono (hmax lan hlan)
  omega

/-- The numbers of the partitions take fewer bits than are set aside for them. -/
theorem dividedBits_spec (hpos : 0 < (part b).count) :
    b.blockBits - countToBlockBit (part b).count ≤ dividedBits part b ∧ dividedBits part b < b.blockBits ∧
      ∀ i < (part b).count, (i : Int) < 2 ^ (b.blockBits - dividedBits part b).toNat := by
  have hlength : (components part b).length = (part b).count := by
    rw [components_eq, length_map, length_range]
  have heq : b.blockBits - dividedBits part b = max 1 (countToBlockBit ((part b).count - 1) : Int) := by
    unfold dividedBits
    simp only [hlength, hpos.ne', if_false]
    omega
  have hmono := countToBlockBit_mono (Nat.sub_le (part b).count 1)
  have hpos' := countToBlockBit_pos hpos
  refine ⟨by omega, by omega, fun i hi => ?_⟩
  have hlt := lt_two_pow_countToBlockBit ((part b).count - 1)
  have hle : countToBlockBit ((part b).count - 1) ≤ (b.blockBits - dividedBits part b).toNat := by
    omega
  have := Nat.pow_le_pow_right (Nat.zero_lt_two) hle
  have : i < 2 ^ (b.blockBits - dividedBits part b).toNat := by omega
  exact_mod_cast this

/-! ## Section 5: Blocks -/

def Child (part : Partitioner) (lans : List (List Nat)) (b c : Block) : Prop :=
  partitioningIsOk part lans b = true ∧ c.blockBits = dividedBits part b ∧
    c.partitionList ∈ components part b ∧ 1 < c.partitionList.length

/-- A block that comes up, and is not divided any further because the partitions do not fit. -/
def Undivided (part : Partitioner) (lans : List (List Nat)) (b c : Block) : Prop :=
  Relation.ReflTransGen (Child part lans) b c ∧ partitioningIsOk part lans c = false

/-- The part of the blocks that are not divided that is in one partition. -/
def UndividedIn (part : Partitioner) (lans : List (List Nat)) (bits : Int) (list : List Nat) (c : Block) : Prop :=
  1 < list.length ∧ Undivided part lans { blockBits := bits, partitionList := list } c

theorem undivided_iff {c : Block} : Undivided part lans b c ↔ (partitioningIsOk part lans b = false ∧ c = b) ∨
      (partitioningIsOk part lans b = true ∧
        ∃ i < (part b).count, UndividedIn part lans (dividedBits part b) (component part b i) c) := by
  unfold Undivided UndividedIn
  constructor
  · rintro ⟨hreach, hfit⟩
    rcases Relation.ReflTransGen.cases_head hreach with rfl | ⟨d, hchild, hreach⟩
    · exact .inl ⟨hfit, rfl⟩
    · obtain ⟨hfit', hbits, hmem, hlength⟩ := hchild
      rw [components_eq, List.mem_map] at hmem
      obtain ⟨i, hi, hlist⟩ := hmem
      refine .inr ⟨hfit', i, mem_range.mp hi, ?_⟩
      rw [hlist, ← hbits]
      exact ⟨hlength, hreach, hfit⟩
  · rintro (⟨hfit, rfl⟩ | ⟨hfit, i, hi, hlength, hreach, hfit'⟩)
    · exact ⟨.refl, hfit⟩
    · refine ⟨.head ⟨hfit, rfl, ?_, hlength⟩ hreach, hfit'⟩
      rw [components_eq]
      exact mem_map_of_mem (mem_range.mpr hi)

theorem undivided_subset (hpart : Labels part) {c : Block} (h : Undivided part lans b c) :
    c.partitionList ⊆ b.partitionList := by
  obtain ⟨hreach, -⟩ := h
  induction hreach with
  | refl => exact fun _ hlan => hlan
  | tail _ hchild ih =>
    obtain ⟨-, -, hmem, -⟩ := hchild
    rw [components_eq, List.mem_map] at hmem
    obtain ⟨i, -, hlist⟩ := hmem
    intro lan hlan
    exact ih ((component_sublist hpart _ i).subset (hlist ▸ hlan))

/-- What the LANs of a subnet get: prefixes of the subnet that have nothing in common, with the
    bits that are left where a block is not divided any further, and enough bits elsewhere. -/
structure PrefixSpec (lans : List (List Nat)) (undivided : Block → Prop) (bits subnet : Nat)
    (list : List Nat) (leaves : Leaves) : Prop where
  entry : ∀ lan ∈ list, ∃ e, leaves lan = some e ∧ Within bits subnet e
  apart : ∀ lan ∈ list, ∀ lan' ∈ list, lan ≠ lan' → ∀ e e', leaves lan = some e →
    leaves lan' = some e' → ∀ n, e.Covers n → ¬e'.Covers n
  left : ∀ c, undivided c → ∀ lan ∈ c.partitionList, ∃ e, leaves lan = some e ∧ (e.bits : Int) = leftBits c
  room : ∀ lan ∈ list, (∃ c, undivided c ∧ lan ∈ c.partitionList) ∨
    ∃ e, leaves lan = some e ∧ hostCount lans lan + 1 < 2 ^ e.bits

theorem PrefixSpec.congr {undivided : Block → Prop} {bits subnet : Nat} {list : List Nat}
    {leaves leaves' : Leaves} (hsub : ∀ c, undivided c → c.partitionList ⊆ list)
    (h : PrefixSpec lans undivided bits subnet list leaves) (heq : ∀ lan ∈ list, leaves' lan = leaves lan) :
    PrefixSpec lans undivided bits subnet list leaves' where
  entry lan hlan := by
    rw [heq lan hlan]
    exact h.entry lan hlan
  apart lan hlan lan' hlan' hne e e' he he' := by
    rw [heq lan hlan] at he
    rw [heq lan' hlan'] at he'
    exact h.apart lan hlan lan' hlan' hne e e' he he'
  left c hc lan hlan := by
    rw [heq lan (hsub c hc hlan)]
    exact h.left c hc lan hlan
  room lan hlan := by
    rw [heq lan hlan]
    exact h.room lan hlan

theorem prefixSpec_divided (hpart : Labels part) (hfit : partitioningIsOk part lans b = true)
    {bits small subnet : Nat} (hle : small ≤ bits)
    (haligned : 2 ^ bits ∣ subnet) (hcount : ∀ i < (part b).count, i < 2 ^ (bits - small)) {leaves : Leaves}
    (h : ∀ i < (part b).count, PrefixSpec lans
      (UndividedIn part lans (dividedBits part b) (component part b i)) small
      (subnet + i * 2 ^ small) (component part b i) leaves) :
    PrefixSpec lans (Undivided part lans b) bits subnet b.partitionList leaves where
  entry lan hlan := by
    obtain ⟨i, hi, hmem⟩ := exists_component hpart hlan
    obtain ⟨e, he, hwithin⟩ := (h i hi).entry lan hmem
    exact ⟨e, he, hwithin.trans hle (covers_child hle haligned (hcount i hi))⟩
  apart lan hlan lan' hlan' hne e e' he he' n hn hn' := by
    obtain ⟨i, hi, hmem⟩ := exists_component hpart hlan
    obtain ⟨j, hj, hmem'⟩ := exists_component hpart hlan'
    by_cases hij : i = j
    · subst hij
      exact (h i hi).apart lan hmem lan' hmem' hne e e' he he' n hn hn'
    · -- the partitions have nothing in common
      obtain ⟨e₁, he₁, hwithin⟩ := (h i hi).entry lan hmem
      obtain ⟨e₂, he₂, hwithin'⟩ := (h j hj).entry lan' hmem'
      obtain rfl : e = e₁ := some.inj (he.symm.trans he₁)
      obtain rfl : e' = e₂ := some.inj (he'.symm.trans he₂)
      exact not_covers_sibling hij (hwithin.covers hn) (hwithin'.covers hn')
  left c hc lan hlan := by
    rcases undivided_iff.mp hc with ⟨hbad, -⟩ | ⟨-, i, hi, hin⟩
    · rw [hfit] at hbad
      cases hbad
    · exact (h i hi).left c hin lan hlan
  room lan hlan := by
    obtain ⟨i, hi, hmem⟩ := exists_component hpart hlan
    rcases (h i hi).room lan hmem with ⟨c, hc, hlan⟩ | hroom
    · exact .inl ⟨c, undivided_iff.mpr (.inr ⟨hfit, i, hi, hc⟩), hlan⟩
    · exact .inr hroom

/-- The LANs of a block that is not divided. -/
theorem prefixSpec_undivided (hfit : partitioningIsOk part lans b = false) {bits small subnet : Nat}
    (hsmall : leftBits b = small) (hle : small ≤ bits) (haligned : 2 ^ bits ∣ subnet)
    (hlength : ∀ i < b.partitionList.length, i < 2 ^ (bits - small)) {leaves : Leaves}
    (h : ∀ a ∈ b.partitionList.zipIdx, leaves a.1 =
      some { start := subnet + a.2 * 2 ^ small, maskSize := totalBits - small }) :
    PrefixSpec lans (Undivided part lans b) bits subnet b.partitionList leaves := by
  have hleaf : ∀ lan ∈ b.partitionList, ∃ i, (lan, i) ∈ b.partitionList.zipIdx ∧ i < b.partitionList.length ∧
      leaves lan = some { start := subnet + i * 2 ^ small, maskSize := totalBits - small } := by
    intro lan hlan
    obtain ⟨i, hi, rfl⟩ := mem_iff_getElem.mp hlan
    have hmem : (b.partitionList[i], i) ∈ b.partitionList.zipIdx := by
      rw [mem_zipIdx_iff_getElem?]
      exact List.getElem?_eq_getElem hi
    exact ⟨i, hmem, hi, h _ hmem⟩
  have hmask : totalBits - (small : Int) ≤ 32 := by
    unfold totalBits
    omega
  constructor
  · intro lan hlan
    obtain ⟨i, -, hi, hsome⟩ := hleaf lan hlan
    refine ⟨_, hsome, hmask, ?_, ?_, covers_child hle haligned (hlength i hi)⟩
    · rw [bits_entry]
      exact hle
    · rw [bits_entry]
      exact dvd_child hle haligned
  · intro lan hlan lan' hlan' hne e e' he he' n hn hn'
    obtain ⟨i, hmem, hi, hsome⟩ := hleaf lan hlan
    obtain ⟨j, hmem', hj, hsome'⟩ := hleaf lan' hlan'
    have hij : i ≠ j := by
      rintro rfl
      rw [mem_zipIdx_iff_getElem?] at hmem hmem'
      exact hne (some.inj (hmem.symm.trans hmem'))
    rw [hsome, Option.some.injEq] at he
    rw [hsome', Option.some.injEq] at he'
    subst he he'
    unfold NetworkEntry.Covers at hn hn'
    rw [bits_entry] at hn hn'
    exact not_covers_sibling hij hn hn'
  · intro c hc lan hlan
    rcases undivided_iff.mp hc with ⟨-, rfl⟩ | ⟨hgood, -⟩
    · obtain ⟨i, -, hi, hsome⟩ := hleaf lan hlan
      refine ⟨_, hsome, ?_⟩
      rw [bits_entry]
      exact hsmall.symm
    · rw [hfit] at hgood
      cases hgood
  · intro lan hlan
    exact .inl ⟨b, undivided_iff.mpr (.inl ⟨hfit, rfl⟩), hlan⟩

/-! ## Section 6: The recursion -/

/-- The LANs of a block that is not divided are numbered. -/
theorem assignLans_spec (hfit : partitioningIsOk part lans b = false) (hnodup : b.partitionList.Nodup)
    {bits small subnet : Nat} (hbits : bits < 32) (hsmall : leftBits b = small) (hle : small ≤ bits)
    (haligned : 2 ^ bits ∣ subnet) (hsubnet : subnet + 2 ^ bits ≤ 2 ^ 32)
    (hlength : ∀ i < b.partitionList.length, i < 2 ^ (bits - small)) (leaves : Leaves) :
    Yields False (b.partitionList.zipIdx.foldlM (assignLan subnet (leftBits b)) leaves)
      fun leaves' => (∀ lan ∉ b.partitionList, leaves' lan = leaves lan) ∧
        PrefixSpec lans (Undivided part lans b) bits subnet b.partitionList leaves' := by
  rw [hsmall]
  have hfst : b.partitionList.zipIdx.map Prod.fst = b.partitionList := zipIdx_map_fst 0 _
  refine Yields.imp (foldlM_apart (fun a : Nat × Nat => [a.1]) (fun a leaves => leaves a.1 =
      some { start := subnet + a.2 * 2 ^ small, maskSize := totalBits - small }) ?_ ?_ ?_ leaves) ?_
  · intro a leaves leaves' heq ha
    rw [heq a.1 (mem_singleton_self _)]
    exact ha
  · rintro ⟨lan, i⟩ hmem leaves
    have hi : i < 2 ^ (bits - small) := by
      rw [mem_zipIdx_iff_getElem?] at hmem
      exact hlength i (List.getElem?_eq_some_iff.mp hmem).1
    have hchild := child_lt hle hi
    have hlt : i * 2 ^ small < 2 ^ 32 := by
      have := Nat.pow_le_pow_right Nat.zero_lt_two hbits.le
      have : 0 < 2 ^ small := by positivity
      omega
    have hstart : subnet + i * 2 ^ small < 2 ^ 32 := by
      have : 0 < 2 ^ small := by positivity
      omega
    unfold assignLan
    rw [shiftLeft_ok (by omega) hlt]
    show Yields False (setLeaf leaves lan (i <<< small ||| subnet) small) _
    rw [shiftLeft_or hle haligned hi, setLeaf_ok (by omega) (dvd_child hle haligned) hstart]
    refine ⟨fun lan' hlan' => update_of_ne ?_ _ _, update_self ..⟩
    exact fun heq => hlan' (mem_singleton.mpr heq)
  · rw [← hfst] at hnodup
    refine (pairwise_map.mp hnodup).imp fun {a a'} hne => ?_
    rw [singleton_disjoint, mem_singleton]
    exact hne
  · rintro leaves' ⟨hframe, hall⟩
    refine ⟨fun lan hlan => hframe lan fun a ha => ?_, prefixSpec_undivided hfit hsmall hle haligned hlength hall⟩
    have : a.1 ∈ b.partitionList := hfst ▸ mem_map_of_mem ha
    rw [mem_singleton]
    rintro rfl
    exact hlan this

theorem assignComponent_spec {divide : Nat → Block → Leaves → Except Fault Leaves}
    {bits small subnet i : Nat} (hbits : bits < 32) (hle : small ≤ bits) (haligned : 2 ^ bits ∣ subnet)
    (hsubnet : subnet + 2 ^ bits ≤ 2 ^ 32) (hi : i < 2 ^ (bits - small)) {list : List Nat}
    (hone : ∀ lan, list = [lan] → hostCount lans lan + 1 < 2 ^ small)
    (hdivide : 1 < list.length → ∀ leaves, Yields False
      (divide (subnet + i * 2 ^ small) { blockBits := small, partitionList := list } leaves)
      fun leaves' => (∀ lan ∉ list, leaves' lan = leaves lan) ∧
        PrefixSpec lans (Undivided part lans { blockBits := small, partitionList := list }) small
          (subnet + i * 2 ^ small) list leaves') (leaves : Leaves) :
    Yields False (assignComponent divide subnet small leaves (list, i)) fun leaves' =>
      (∀ lan ∉ list, leaves' lan = leaves lan) ∧
        PrefixSpec lans (UndividedIn part lans small list) small (subnet + i * 2 ^ small) list
          leaves' := by
  have hchild := child_lt hle hi
  have hpos : 0 < 2 ^ small := by positivity
  have hlt : i * 2 ^ small < 2 ^ 64 := by
    have := Nat.pow_le_pow_right Nat.zero_lt_two (show bits ≤ 64 by omega)
    omega
  have hstart : subnet + i * 2 ^ small < 2 ^ 32 := by omega
  unfold assignComponent
  simp only
  rw [shiftLeft_ok (by omega) hlt]
  have haddr : (i <<< small ||| subnet) % 2 ^ 32 = subnet + i * 2 ^ small := by
    rw [shiftLeft_or hle haligned hi, Nat.mod_eq_of_lt hstart]
  have hnone : ∀ {c : Block}, list.length ≤ 1 → ¬UndividedIn part lans small list c := by
    intro c hlength hc
    have := hc.1
    omega
  rcases list with _ | ⟨lan, _ | ⟨lan', rest⟩⟩
  · refine ⟨fun _ _ => rfl, ?_, ?_, ?_, ?_⟩
    · simp
    · simp
    · exact fun c hc => absurd hc (hnone (by simp))
    · simp
  · show Yields False (setLeaf leaves lan ((i <<< small ||| subnet) % 2 ^ 32) small) _
    rw [haddr, setLeaf_ok (by omega) (dvd_child hle haligned) hstart]
    generalize he : ({ start := subnet + i * 2 ^ small, maskSize := totalBits - small } : NetworkEntry) = e
    have hebits : e.bits = small := by rw [← he, bits_entry]
    refine ⟨fun lan' hlan' => update_of_ne ?_ _ _, ?_, ?_, ?_, ?_⟩
    · exact fun heq => hlan' (mem_singleton.mpr heq)
    · intro lan' hlan'
      obtain rfl := mem_singleton.mp hlan'
      refine ⟨e, update_self .., ?_, hebits.le, ?_, ?_⟩
      · rw [← he]
        show totalBits - (small : Int) ≤ 32
        unfold totalBits
        omega
      · rw [hebits, ← he]
        exact dvd_child hle haligned
      · rw [← he]
        rfl
    · intro lan₁ hlan₁ lan₂ hlan₂ hne
      rw [mem_singleton.mp hlan₁, mem_singleton.mp hlan₂] at hne
      exact absurd rfl hne
    · exact fun c hc => absurd hc (hnone (by simp))
    · intro lan' hlan'
      obtain rfl := mem_singleton.mp hlan'
      refine .inr ⟨e, update_self .., ?_⟩
      rw [hebits]
      exact hone lan' rfl
  · have hlength : 1 < (lan :: lan' :: rest).length := by simp
    show Yields False (divide ((i <<< small ||| subnet) % 2 ^ 32)
      { blockBits := small, partitionList := lan :: lan' :: rest } leaves) _
    rw [haddr]
    refine (hdivide hlength leaves).imp ?_
    rintro leaves' ⟨hframe, hspec⟩
    refine ⟨hframe, ?_⟩
    exact {
      entry := hspec.entry
      apart := hspec.apart
      left := fun c hc => hspec.left c hc.2
      room := fun lan hlan => by
        rcases hspec.room lan hlan with ⟨c, hc, hmem⟩ | hroom
        · exact .inl ⟨c, ⟨hlength, hc⟩, hmem⟩
        · exact .inr hroom }

theorem leftBits_spec {bits small : Nat} (hb : b.blockBits = bits) (hsmall : leftBits b = small) :
    small ≤ bits ∧ ∀ i < b.partitionList.length, i < 2 ^ (bits - small) := by
  unfold leftBits at hsmall
  refine ⟨by omega, fun i hi => ?_⟩
  have hbits : bits - small = countToBlockBit b.partitionList.length := by omega
  rw [hbits]
  exact hi.trans (lt_two_pow_countToBlockBit _)

/-- **Blocks.** The LANs of a block get prefixes of its subnet, unless there are not even bits to
    number them. -/
theorem divideAndConquer_spec (hpart : Labels part) (fuel : Nat) {bits subnet : Nat}
    (hfuel : bits < fuel) (hb : b.blockBits = bits) (hbits : bits < 32)
    (haligned : 2 ^ bits ∣ subnet) (hsubnet : subnet + 2 ^ bits ≤ 2 ^ 32) (hnodup : b.partitionList.Nodup)
    (hleft : partitioningIsOk part lans b = false → 0 ≤ leftBits b) (leaves : Leaves) :
    Yields False (divideAndConquer part lans fuel subnet b leaves) fun leaves' =>
      (∀ lan ∉ b.partitionList, leaves' lan = leaves lan) ∧
        PrefixSpec lans (Undivided part lans b) bits subnet b.partitionList leaves' := by
  induction fuel generalizing b bits subnet leaves with
  | zero => omega
  | succ fuel ih =>
    have hstart : subnet < 2 ^ 32 := by
      have : 0 < 2 ^ bits := by positivity
      omega
    unfold divideAndConquer
    rw [hb, setNetworkEntry_ok hbits haligned hstart]
    cases hfit : partitioningIsOk part lans b with
    | false =>
      show Yields False (b.partitionList.zipIdx.foldlM (assignLan subnet (leftBits b)) leaves) _
      obtain ⟨small, hsmall⟩ := Int.eq_ofNat_of_zero_le (hleft hfit)
      obtain ⟨hle, hlength⟩ := leftBits_spec hb hsmall
      exact assignLans_spec hfit hnodup hbits hsmall hle haligned hsubnet hlength leaves
    | true =>
      show Yields False ((components part b).zipIdx.foldlM
        (assignComponent (divideAndConquer part lans fuel) subnet (dividedBits part b)) leaves) _
      by_cases hcount : (part b).count = 0
      · -- there are no LANs
        have hnil : b.partitionList = [] := by
          rw [eq_nil_iff_forall_not_mem]
          intro lan hlan
          obtain ⟨i, hi, -⟩ := exists_component hpart hlan
          omega
        have hcomponents : components part b = [] := by
          rw [components_eq, hcount]
          rfl
        rw [hcomponents]
        refine ⟨fun _ _ => rfl, ?_, ?_, ?_, ?_⟩
        · simp [hnil]
        · simp [hnil]
        · intro c hc lan hlan
          have hmem := undivided_subset hpart hc hlan
          rw [hnil] at hmem
          cases hmem
        · simp [hnil]
      · obtain ⟨hlow, hlt, hnumber⟩ := @dividedBits_spec part b (by omega)
        have hfirst := (fits_component hfit (i := 0) (by omega)).1
        obtain ⟨small, hsmall⟩ := Int.eq_ofNat_of_zero_le (show 0 ≤ dividedBits part b by omega)
        have hnumber' : ∀ i < (part b).count, i < 2 ^ (bits - small) := by
          intro i hi
          have hlt := hnumber i hi
          have hbits' : (b.blockBits - dividedBits part b).toNat = bits - small := by omega
          rw [hbits'] at hlt
          exact_mod_cast hlt
        refine Yields.imp (foldlM_apart (fun a : List Nat × Nat => a.1)
          (fun a leaves => PrefixSpec lans (UndividedIn part lans (dividedBits part b) a.1) small
            (subnet + a.2 * 2 ^ small) a.1 leaves) ?_ ?_ ?_ leaves) ?_
        · intro a leaves leaves' heq ha
          exact ha.congr (fun c hc => undivided_subset hpart hc.2) heq
        · rintro ⟨list, i⟩ hmem leaves
          obtain ⟨hi, rfl⟩ := mem_zipIdx_components.mp hmem
          obtain ⟨hfits, hfits'⟩ := fits_component hfit hi
          have hchild := child_lt (show small ≤ bits by omega) (hnumber' i hi)
          rw [hsmall]
          refine assignComponent_spec hbits (by omega) haligned hsubnet (hnumber' i hi) ?_ ?_ leaves
          · intro lan hlan
            have hone := hfits' lan (by rw [hlan]; exact mem_singleton_self lan)
            have hpos := countToBlockBit_pos (show 0 < (component part b i).length by simp [hlan])
            have hhosts := lt_two_pow_countToBlockBit (hostCount lans lan)
            -- one bit more than the hosts take
            have hroom : countToBlockBit (hostCount lans lan) + 1 ≤ small := by omega
            have hpow := Nat.pow_le_pow_right Nat.zero_lt_two hroom
            rw [pow_succ] at hpow
            have : 0 < 2 ^ countToBlockBit (hostCount lans lan) := by positivity
            omega
          · intro _ leaves
            apply ih
            · omega
            · rfl
            · omega
            · exact dvd_child (by omega) haligned
            · omega
            · exact hnodup.sublist (component_sublist hpart b i)
            · intro _
              unfold leftBits
              simp only
              omega
        · have hsnd : (components part b).zipIdx.Pairwise fun a a' => a.2 ≠ a'.2 := by
            rw [← pairwise_map, zipIdx_map_snd]
            exact nodup_range'
          refine hsnd.imp_of_mem fun {a a'} ha ha' hne => ?_
          obtain ⟨list, i⟩ := a
          obtain ⟨list', j⟩ := a'
          obtain ⟨-, rfl⟩ := mem_zipIdx_components.mp ha
          obtain ⟨-, rfl⟩ := mem_zipIdx_components.mp ha'
          exact component_disjoint hpart hnodup hne
        · rintro leaves' ⟨hframe, hall⟩
          constructor
          · intro lan hlan
            refine hframe lan fun a ha => ?_
            obtain ⟨list, i⟩ := a
            obtain ⟨-, rfl⟩ := mem_zipIdx_components.mp ha
            exact fun hmem => hlan ((component_sublist hpart b i).subset hmem)
          · exact prefixSpec_divided hpart hfit (by omega) haligned hnumber' fun i hi =>
              hall _ (mem_zipIdx_components.mpr ⟨hi, rfl⟩)

end

/-! ## Section 7: Addresses -/

structure WellAssigned (lans : List (List Nat)) (leaves : Leaves) : Prop where
  nested : ∀ lan < lans.length, ∃ e, leaves lan = some e ∧ Within 24 prefixIp e
  disjoint : ∀ lan < lans.length, ∀ lan' < lans.length, lan ≠ lan' → ∀ e e',
    leaves lan = some e → leaves lan' = some e' → ∀ n, e.Covers n → ¬e'.Covers n
  /-- The address of an interface is in the prefix, and not the first nor the last one there. -/
  inside : ∀ lan < lans.length, ∀ i < hostCount lans lan, ∀ e, leaves lan = some e →
    e.Covers (address e i) ∧ address e i % 2 ^ e.bits ≠ 0 ∧ address e i % 2 ^ e.bits ≠ 2 ^ e.bits - 1
  distinct : ∀ lan < lans.length, ∀ lan' < lans.length, ∀ i < hostCount lans lan,
    ∀ i' < hostCount lans lan', ∀ e e', leaves lan = some e → leaves lan' = some e' →
      address e i = address e' i' → lan = lan' ∧ i = i'

/-- An exception is thrown, or addresses are assigned. -/
def Assigned (lans : List (List Nat)) (r : Except Fault Leaves) : Prop :=
  r = .error .thrown ∨ ∃ leaves, r = .ok leaves ∧ WellAssigned lans leaves

/-- The bits that a block leaves to a LAN suffice for its hosts, the first and the last address
    not being used. -/
def RoomFor (lans : List (List Nat)) (c : Block) (lan : Nat) : Prop :=
  0 ≤ leftBits c ∧ (hostCount lans lan = 0 ∨ hostCount lans lan + 1 < 2 ^ (leftBits c).toNat)

theorem address_eq {e : NetworkEntry} (h : Within 24 prefixIp e) {i : Nat} (hi : i + 1 < 2 ^ e.bits) :
    address e i = e.start + i + 1 ∧ e.Covers (e.start + i + 1) ∧ (e.start + i + 1) % 2 ^ e.bits = i + 1 := by
  have hstart : e.start / 2 ^ 24 = 10 := h.start
  have hpow := Nat.pow_le_pow_right Nat.zero_lt_two h.le
  obtain ⟨k, hk⟩ := h.aligned
  have hpos : 0 < 2 ^ e.bits := by positivity
  refine ⟨?_, ?_, ?_⟩
  · unfold address
    rw [Nat.mod_eq_of_lt]
    omega
  · unfold NetworkEntry.Covers Subnet.Covers
    rw [hk, add_assoc, Nat.mul_add_div hpos, Nat.mul_div_cancel_left _ hpos, Nat.div_eq_of_lt hi, add_zero]
  · rw [hk, add_assoc, Nat.mul_add_mod, Nat.mod_eq_of_lt hi]

theorem room_of_inside {e : NetworkEntry} (h : Within 24 prefixIp e) {hosts : Nat}
    (hinside : ∀ i < hosts, e.Covers (address e i) ∧ address e i % 2 ^ e.bits ≠ 0 ∧
      address e i % 2 ^ e.bits ≠ 2 ^ e.bits - 1) : hosts = 0 ∨ hosts + 1 < 2 ^ e.bits := by
  by_contra hnot
  obtain ⟨hne, hlt⟩ := not_or.mp hnot
  have hstart : e.start / 2 ^ 24 = 10 := h.start
  by_cases hbits : e.bits = 0
  · -- a prefix that is an address
    have hcovers := (hinside 0 (by omega)).1
    unfold NetworkEntry.Covers Subnet.Covers address at hcovers
    rw [hbits] at hcovers
    omega
  · -- the last address of the prefix is used
    have hpow : 2 ≤ 2 ^ e.bits := by
      calc 2 = 2 ^ 1 := rfl
        _ ≤ 2 ^ e.bits := Nat.pow_le_pow_right Nat.zero_lt_two (by omega)
    obtain ⟨heq, -, hmod⟩ := address_eq h (i := 2 ^ e.bits - 2) (by omega)
    apply (hinside (2 ^ e.bits - 2) (by omega)).2.2
    rw [heq, hmod]
    omega

theorem wellAssigned_of_room {lans : List (List Nat)} {undivided : Block → Prop} {leaves : Leaves}
    (h : PrefixSpec lans undivided 24 prefixIp (List.range lans.length) leaves)
    (hroom : ∀ lan < lans.length, ∀ e, leaves lan = some e →
      hostCount lans lan = 0 ∨ hostCount lans lan + 1 < 2 ^ e.bits) : WellAssigned lans leaves := by
  have hwithin : ∀ lan < lans.length, ∀ e, leaves lan = some e → Within 24 prefixIp e := by
    intro lan hlan e he
    obtain ⟨e', he', hwithin⟩ := h.entry lan (mem_range.mpr hlan)
    rwa [some.inj (he.symm.trans he')]
  have hfit : ∀ lan < lans.length, ∀ i < hostCount lans lan, ∀ e, leaves lan = some e → i + 1 < 2 ^ e.bits := by
    intro lan hlan i hi e he
    rcases hroom lan hlan e he with hzero | hlt
    · omega
    · omega
  constructor
  · exact fun lan hlan => h.entry lan (mem_range.mpr hlan)
  · exact fun lan hlan lan' hlan' hne =>
      h.apart lan (mem_range.mpr hlan) lan' (mem_range.mpr hlan') hne
  · intro lan hlan i hi e he
    have hlt := hfit lan hlan i hi e he
    obtain ⟨heq, hcovers, hmod⟩ := address_eq (hwithin lan hlan e he) hlt
    have hroom' := (hroom lan hlan e he).resolve_left (by omega)
    rw [heq, hmod]
    exact ⟨hcovers, by omega, by omega⟩
  · intro lan hlan lan' hlan' i hi i' hi' e e' he he' haddr
    obtain ⟨heq, hcovers, -⟩ := address_eq (hwithin lan hlan e he) (hfit lan hlan i hi e he)
    obtain ⟨heq', hcovers', -⟩ := address_eq (hwithin lan' hlan' e' he') (hfit lan' hlan' i' hi' e' he')
    have hlans : lan = lan' := by
      by_contra hne
      rw [heq, heq'] at haddr
      rw [haddr] at hcovers
      exact h.apart lan (mem_range.mpr hlan) lan' (mem_range.mpr hlan') hne e e' he he' _ hcovers hcovers'
    subst hlans
    obtain rfl : e = e' := some.inj (he.symm.trans he')
    exact ⟨rfl, by omega⟩

/-- Where there are not even bits to number the LANs, one is shifted by a negative amount. -/
theorem ipAssign_undefined {part : Partitioner} {lans : List (List Nat)}
    (hfit : partitioningIsOk part lans (rootBlock lans) = false)
    (hleft : leftBits (rootBlock lans) < 0) : ipAssign part lans = .error .undefined := by
  have hpos : 0 < lans.length := by
    by_contra hnot
    unfold leftBits rootBlock totalBits prefixBits at hleft
    simp only [length_range, Nat.eq_zero_of_not_pos hnot] at hleft
    exact absurd hleft (by decide)
  have hcons : (rootBlock lans).partitionList.zipIdx = (0, 0) :: ((rootBlock lans).partitionList.zipIdx).tail := by
    obtain ⟨n, hn⟩ := Nat.exists_eq_succ_of_ne_zero hpos.ne'
    unfold rootBlock
    rw [hn, range_succ_eq_map, zipIdx_cons]
    rfl
  have hshift : shiftLeft 32 0 (leftBits (rootBlock lans)) = .error .undefined := by
    unfold shiftLeft
    rw [if_neg (by omega)]
  have hloop : ∀ leaves, (rootBlock lans).partitionList.zipIdx.foldlM
      (assignLan prefixIp (leftBits (rootBlock lans))) leaves = .error .undefined := by
    intro leaves
    rw [hcons, foldlM_cons]
    unfold assignLan
    rw [hshift]
    rfl
  have hset : setNetworkEntry prefixIp (totalBits - (rootBlock lans).blockBits) =
      .ok { start := prefixIp, maskSize := totalBits - (24 : Nat) } :=
    setNetworkEntry_ok (by decide) (by decide) (by decide)
  unfold ipAssign divideAndConquer
  rw [hset]
  show (if partitioningIsOk part lans (rootBlock lans) = true then _ else _) = _
  rw [if_neg (by rw [hfit]; decide)]
  exact hloop _

/-- **Addresses.** All LANs get disjoint prefixes of 10.0.0.0/8, and all interfaces addresses in them,
    exactly if every block that is not divided any further has room for the hosts of its LANs. -/
theorem ipAssign_assigns_iff {part : Partitioner} (hpart : Labels part) (lans : List (List Nat)) :
    Assigned lans (ipAssign part lans) ↔
      ∀ c, Undivided part lans (rootBlock lans) c → ∀ lan ∈ c.partitionList, RoomFor lans c lan := by
  by_cases hroot : partitioningIsOk part lans (rootBlock lans) = false ∧ leftBits (rootBlock lans) < 0
  · rw [ipAssign_undefined hroot.1 hroot.2]
    constructor
    · rintro (heq | ⟨leaves, heq, -⟩)
      · cases heq
      · cases heq
    · intro hroom
      have hpos : 0 < lans.length := by
        by_contra hnot
        have hleft := hroot.2
        unfold leftBits rootBlock totalBits prefixBits at hleft
        simp only [length_range, Nat.eq_zero_of_not_pos hnot] at hleft
        exact absurd hleft (by decide)
      have := (hroom (rootBlock lans) ⟨.refl, hroot.1⟩ 0 (mem_range.mpr hpos)).1
      omega
  · have hspec := @divideAndConquer_spec part lans (rootBlock lans) hpart 25 24 prefixIp
      (by omega) rfl (by omega) (by decide) (by decide) nodup_range
      (fun hfit => by
        by_contra hneg
        exact hroot ⟨hfit, by omega⟩) fun _ => none
    obtain ⟨leaves, hok, -, h⟩ := hspec.returns not_false
    have hok : ipAssign part lans = .ok leaves := hok
    rw [hok]
    constructor
    · rintro (heq | ⟨leaves', heq, hwell⟩) c hc lan hlan
      · cases heq
      · obtain rfl : leaves = leaves' := Except.ok.inj heq
        have hlan' : lan < lans.length := mem_range.mp (undivided_subset hpart hc hlan)
        obtain ⟨e, he, hbits⟩ := h.left c hc lan hlan
        obtain ⟨e', he', hwithin⟩ := hwell.nested lan hlan'
        obtain rfl : e = e' := some.inj (he.symm.trans he')
        refine ⟨by omega, ?_⟩
        rw [← hbits, Int.toNat_natCast]
        exact room_of_inside hwithin fun i hi => hwell.inside lan hlan' i hi e he
    · intro hroom
      refine .inr ⟨leaves, rfl, wellAssigned_of_room h fun lan hlan e he => ?_⟩
      rcases h.room lan (mem_range.mpr hlan) with ⟨c, hc, hmem⟩ | ⟨e', he', hlt⟩
      · obtain ⟨e', he', hbits⟩ := h.left c hc lan hmem
        obtain rfl : e = e' := some.inj (he.symm.trans he')
        have hroom' := (hroom c hc lan hmem).2
        rw [← hbits, Int.toNat_natCast] at hroom'
        exact hroom'
      · obtain rfl : e = e' := some.inj (he.symm.trans he')
        exact .inr hlt

/-- The partitioner that puts all LANs into one partition. -/
def onePartition : Partitioner := fun b =>
  { count := 1, labels := List.replicate b.partitionList.length 0 }

theorem labels_onePartition : Labels onePartition := by
  intro b
  refine ⟨length_replicate, fun l hl => ?_⟩
  rw [eq_of_mem_replicate hl]
  exact Nat.one_pos

theorem ipAssign_assigns_iff_links : Assigned [[0, 1], [1, 2]] (ipAssign onePartition [[0, 1], [1, 2]]) ↔
    ∀ c, Undivided onePartition [[0, 1], [1, 2]] (rootBlock [[0, 1], [1, 2]]) c →
      ∀ lan ∈ c.partitionList, RoomFor [[0, 1], [1, 2]] c lan :=
  ipAssign_assigns_iff labels_onePartition _

/-- Two LANs of three hosts that are not divided get a prefix of two bits each, so that the last host
    of a LAN gets the last address. -/
theorem broadcast_assigned : Labels onePartition ∧
    ¬Assigned [[0, 1, 2], [2, 3, 4]] (ipAssign onePartition [[0, 1, 2], [2, 3, 4]]) := by
  refine ⟨labels_onePartition, ?_⟩
  rintro (heq | ⟨leaves, heq, hwell⟩)
  · have hthrown : ipAssign onePartition [[0, 1, 2], [2, 3, 4]] ≠ .error .thrown := by
      intro heq
      have : (match ipAssign onePartition [[0, 1, 2], [2, 3, 4]] with
        | .ok _ => true
        | .error _ => false) = true := by decide
      rw [heq] at this
      cases this
    exact hthrown heq
  · have hleaf : (match ipAssign onePartition [[0, 1, 2], [2, 3, 4]] with
        | .ok leaves => leaves 0
        | .error _ => none) = some { start := prefixIp, maskSize := 30 } := by decide
    rw [heq] at hleaf
    exact (hwell.inside 0 (by decide) 2 (by decide) _ hleaf).2.2 (by decide)

end Emulab.Ipassign
