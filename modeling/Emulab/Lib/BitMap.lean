import Mathlib.Data.Finset.Card
import Mathlib.Data.Finset.Range
import Mathlib.Order.Interval.Finset.Nat
import Mathlib.Tactic

/-! # Byte arrays as sets of bit positions

  A bit map is an array of bytes; bit `k % 8` of byte `k / 8` says whether
  `k` is in the set. The lemmas give the effect of the byte operations on
  membership, so that code that works on bytes is reasoned about as code
  that works on finite sets.
-/

/-- A set of numbers below `8 * n`, stored as `n` bytes. -/
structure BitMap (n : Nat) where
  bytes : Vector (BitVec 8) n
deriving DecidableEq, Repr

namespace BitMap

variable {n : Nat}

/-- Byte `i` of the map; zero past the end. -/
def byte (m : BitMap n) (i : Nat) : BitVec 8 := m.bytes[i]?.getD 0#8

/-- Store `v` in byte `i`; nothing happens past the end. -/
def setByte (m : BitMap n) (i : Nat) (v : BitVec 8) : BitMap n :=
  ⟨m.bytes.setIfInBounds i v⟩

/-- The map all of whose bytes are `v`. -/
def fill (v : BitVec 8) : BitMap n := ⟨Vector.replicate n v⟩

/-- Whether bit `k` is set. -/
def testBit (m : BitMap n) (k : Nat) : Bool := (m.byte (k / 8)).getLsbD (k % 8)

instance : Membership Nat (BitMap n) := ⟨fun m k => m.testBit k = true⟩

instance (m : BitMap n) (k : Nat) : Decidable (k ∈ m) :=
  inferInstanceAs (Decidable (m.testBit k = true))

instance : EmptyCollection (BitMap n) := ⟨fill 0#8⟩

variable {m : BitMap n}

theorem mem_def {k : Nat} : k ∈ m ↔ m.testBit k = true := Iff.rfl

/-! ## Bytes and bits -/

theorem byte_setByte (m : BitMap n) (i j : Nat) (v : BitVec 8) :
    (m.setByte i v).byte j = if i = j ∧ i < n then v else m.byte j := by
  unfold byte setByte
  rw [Vector.getElem?_setIfInBounds]
  by_cases hij : i = j
  · by_cases hi : i < n
    · simp [hij ▸ hi, hij]
    · have hj : m.bytes[j]? = none := by
        apply Vector.getElem?_eq_none
        omega
      simp [hi, hij ▸ hi]
  · simp [hij]

theorem byte_eq_zero_of_le (m : BitMap n) {i : Nat} (hi : n ≤ i) : m.byte i = 0#8 := by
  unfold byte
  rw [Vector.getElem?_eq_none hi]
  rfl

theorem byte_fill {v : BitVec 8} {i : Nat} (hi : i < n) : (fill v : BitMap n).byte i = v := by
  simp [byte, fill, hi]

/-- Every member is below the number of bits. -/
theorem lt_of_mem {k : Nat} (h : k ∈ m) : k < 8 * n := by
  by_contra hk
  have hz : m.byte (k / 8) = 0#8 := m.byte_eq_zero_of_le (by omega)
  rw [mem_def, testBit, hz] at h
  simp at h

theorem not_mem_of_byte_zero {k : Nat} (h : m.byte (k / 8) = 0#8) : k ∉ m := by
  rw [mem_def, testBit, h]
  simp

theorem mem_of_byte_ones {k : Nat} (h : m.byte (k / 8) = BitVec.allOnes 8) : k ∈ m := by
  rw [mem_def, testBit, h, BitVec.getLsbD_allOnes]
  exact decide_eq_true (Nat.mod_lt _ (by decide))

@[simp] theorem not_mem_empty (k : Nat) : k ∉ (∅ : BitMap n) := by
  intro h
  have hk := lt_of_mem h
  exact not_mem_of_byte_zero (byte_fill (by omega)) h

theorem mem_fill_ones {k : Nat} : k ∈ (fill (BitVec.allOnes 8) : BitMap n) ↔ k < 8 * n := by
  refine ⟨lt_of_mem, fun hk => mem_of_byte_ones (byte_fill (by omega))⟩

theorem mem_setByte {i k : Nat} {v : BitVec 8} (hi : i < n) :
    k ∈ m.setByte i v ↔ if k / 8 = i then v.getLsbD (k % 8) = true else k ∈ m := by
  rw [mem_def, testBit, byte_setByte]
  by_cases hk : k / 8 = i
  · simp [hk, hi]
  · have : ¬(i = k / 8 ∧ i < n) := fun h => hk h.1.symm
    rw [if_neg this, if_neg hk, mem_def, testBit]

/-! ## Masking a single bit -/

/-- The mask `1 << off`. -/
def mask (off : Nat) : BitVec 8 := 1#8 <<< off

theorem getLsbD_mask {off j : Nat} (hj : j < 8) : (mask off).getLsbD j = decide (j = off) := by
  unfold mask
  rw [BitVec.getLsbD_shiftLeft]
  by_cases h : j = off
  · subst h; simp [hj]
  · by_cases hlt : j < off
    · simp [h, hlt]
    · have : j - off ≠ 0 := by omega
      simp [h, hlt, this]

theorem and_mask_eq_zero {i off : Nat} (hoff : off < 8) : m.byte i &&& mask off = 0#8 ↔ 8 * i + off ∉ m := by
  rw [mem_def, testBit, show (8 * i + off) / 8 = i by omega, show (8 * i + off) % 8 = off by omega]
  constructor
  · intro h hbit
    have := congrArg (fun v => BitVec.getLsbD v off) h
    simp [getLsbD_mask hoff, hbit] at this
  · intro h
    apply BitVec.eq_of_getLsbD_eq
    intro j hj
    by_cases hjo : j = off
    · subst hjo
      simp at h
      simp [h]
    · simp [getLsbD_mask hj, hjo]

theorem mem_setByte_or {i off k : Nat} (hi : i < n) (hoff : off < 8) :
    k ∈ m.setByte i (m.byte i ||| mask off) ↔ k ∈ m ∨ k = 8 * i + off := by
  rw [mem_setByte hi]
  by_cases hk : k / 8 = i
  · have hmod : k % 8 < 8 := Nat.mod_lt _ (by decide)
    have hiff : k % 8 = off ↔ k = 8 * i + off := by omega
    simp [hk, getLsbD_mask hmod, hiff, mem_def, testBit]
  · have : k ≠ 8 * i + off := by omega
    simp [hk, this]

theorem mem_setByte_andNot {i off k : Nat} (hi : i < n) (hoff : off < 8) :
    k ∈ m.setByte i (m.byte i &&& ~~~mask off) ↔ k ∈ m ∧ k ≠ 8 * i + off := by
  rw [mem_setByte hi]
  by_cases hk : k / 8 = i
  · have hmod : k % 8 < 8 := Nat.mod_lt _ (by decide)
    have hiff : k % 8 = off ↔ k = 8 * i + off := by omega
    rw [if_pos hk, BitVec.getLsbD_and, BitVec.getLsbD_not, getLsbD_mask hmod, mem_def, testBit, hk]
    simp [hmod, hiff]
  · have : k ≠ 8 * i + off := by omega
    simp [hk, this]

/-- A byte all of whose bits are `v`. -/
def allBits (v : Bool) : BitVec 8 := if v then BitVec.allOnes 8 else 0#8

/-- Store `v` in one bit of a byte. -/
def putBit (v : Bool) (byte : BitVec 8) (off : Nat) : BitVec 8 :=
  if v then byte ||| mask off else byte &&& ~~~mask off

theorem mem_setByte_allBits {v : Bool} {i k : Nat} (hi : i < n) :
    k ∈ m.setByte i (allBits v) ↔ if 8 * i ≤ k ∧ k < 8 * i + 8 then v = true else k ∈ m := by
  have hmod : k % 8 < 8 := Nat.mod_lt _ (by decide)
  have hiff : k / 8 = i ↔ 8 * i ≤ k ∧ k < 8 * i + 8 := by omega
  rw [mem_setByte hi]
  simp only [hiff]
  cases v
  · simp [allBits]
  · simp only [allBits, if_true, BitVec.getLsbD_allOnes, hmod, decide_true]

theorem mem_setByte_putBit {v : Bool} {i off k : Nat} (hi : i < n) (hoff : off < 8) :
    k ∈ m.setByte i (putBit v (m.byte i) off) ↔ if k = 8 * i + off then v = true else k ∈ m := by
  cases v
  · simp only [putBit, Bool.false_eq_true, if_false, mem_setByte_andNot hi hoff]
    split_ifs <;> simp_all
  · simp only [putBit, if_true, mem_setByte_or hi hoff]
    split_ifs <;> simp_all

/-! ## The set of members and its size -/

/-- The members as a finite set. -/
def toFinset (m : BitMap n) : Finset Nat := (Finset.range (8 * n)).filter (· ∈ m)

def card (m : BitMap n) : Nat := m.toFinset.card

@[simp] theorem mem_toFinset {k : Nat} : k ∈ m.toFinset ↔ k ∈ m := by
  unfold toFinset
  rw [Finset.mem_filter, Finset.mem_range]
  exact ⟨fun h => h.2, fun h => ⟨lt_of_mem h, h⟩⟩

theorem card_le (m : BitMap n) : m.card ≤ 8 * n := by
  calc m.card ≤ (Finset.range (8 * n)).card := Finset.card_filter_le _ _
    _ = 8 * n := Finset.card_range _

theorem card_pos : 0 < m.card ↔ ∃ k, k ∈ m := by
  unfold card
  rw [Finset.card_pos]
  exact ⟨fun ⟨k, hk⟩ => ⟨k, mem_toFinset.mp hk⟩, fun ⟨k, hk⟩ => ⟨k, mem_toFinset.mpr hk⟩⟩

@[simp] theorem card_empty : (∅ : BitMap n).card = 0 := by
  by_contra h
  obtain ⟨k, hk⟩ := card_pos.mp (Nat.pos_of_ne_zero h)
  exact not_mem_empty k hk

theorem mem_of_card_eq {size k : Nat} (hlt : ∀ j ∈ m, j < size) (h : m.card = size) (hk : k < size) : k ∈ m := by
  have hsub : m.toFinset ⊆ Finset.range size := by
    intro j hj
    exact Finset.mem_range.mpr (hlt j (mem_toFinset.mp hj))
  have heq : m.toFinset = Finset.range size := by
    apply Finset.eq_of_subset_of_card_le hsub
    rw [Finset.card_range]
    exact h.ge
  rw [← mem_toFinset, heq]
  exact Finset.mem_range.mpr hk

/-- Adding one new member adds one to the count. -/
theorem card_insert {m m' : BitMap n} {b : Nat} (hb : b ∉ m) (h : ∀ k, k ∈ m' ↔ k ∈ m ∨ k = b) :
    m'.card = m.card + 1 := by
  have : m'.toFinset = insert b m.toFinset := by
    ext k
    simp [h k, or_comm]
  unfold card
  rw [this, Finset.card_insert_of_notMem (by simpa using hb)]

/-- Removing a contiguous run of members removes its length from the count. -/
theorem card_remove_run {m m' : BitMap n} {b len : Nat} (hrun : ∀ k, b ≤ k → k < b + len → k ∈ m)
    (h : ∀ k, k ∈ m' ↔ k ∈ m ∧ ¬(b ≤ k ∧ k < b + len)) : m'.card + len = m.card := by
  have hdisj : Disjoint m'.toFinset (Finset.Ico b (b + len)) := by
    rw [Finset.disjoint_left]
    intro k hk hk'
    exact ((h k).mp (mem_toFinset.mp hk)).2 (Finset.mem_Ico.mp hk')
  have hunion : m.toFinset = m'.toFinset ∪ Finset.Ico b (b + len) := by
    ext k
    simp only [mem_toFinset, Finset.mem_union, Finset.mem_Ico, h k]
    constructor
    · intro hk
      by_cases hin : b ≤ k ∧ k < b + len
      · exact Or.inr hin
      · exact Or.inl ⟨hk, hin⟩
    · rintro (hk | hk)
      · exact hk.1
      · exact hrun k hk.1 hk.2
  unfold card
  rw [hunion, Finset.card_union_of_disjoint hdisj, Nat.card_Ico]
  omega

end BitMap
