import Emulab.Frisbee.BlockMap
import Emulab.Lib.Thread

/-! # Asking a block map

  Counting the blocks of a range, the complement of a map, and the calls
  that `BlockMapApply` makes, one for each contiguous range of blocks.
-/

namespace Emulab.Frisbee

open BitMap MachineInt Thread

/-! ## Section 1: Counting -/

/-- The loop of `BlockMapIsAlloc`: `count` blocks from bit `off` of byte `i`
    on. A read past the end of the map is a failure. -/
def blockMapIsAllocLoop (blockmap : BlockMap) (count i off did : Nat) : Option Nat :=
  if count = 0 then
    some did
  else if i < BLOCKMAPSIZE then
    let val := blockmap.byte i
    -- common aggregate cases
    if off = 0 ∧ CHAR_BIT ≤ count ∧ (val = 0#8 ∨ val = BitVec.allOnes 8) then
      blockMapIsAllocLoop blockmap (count - CHAR_BIT) (i + 1) 0 (did + if val ≠ 0#8 then CHAR_BIT else 0)
    else
      let did := did + if val &&& mask off ≠ 0#8 then 1 else 0
      if off + 1 = CHAR_BIT then blockMapIsAllocLoop blockmap (count - 1) (i + 1) 0 did
      else blockMapIsAllocLoop blockmap (count - 1) i (off + 1) did
  else
    none
termination_by count

/-- The number of blocks allocated in a range. -/
def blockMapIsAlloc (blockmap : BlockMap) (block count : Int) : Option Nat :=
  if rangeAsserted block count then
    blockMapIsAllocLoop blockmap count.toNat (block.toNat / CHAR_BIT) (block.toNat % CHAR_BIT) 0
  else
    none

/-- How many of the `count` blocks from `block` on are in the map. -/
def countFrom (m : BlockMap) (block count : Nat) : Nat := Nat.count (fun k => block + k ∈ m) count

variable (m : BlockMap)

theorem countFrom_add (block n count : Nat) :
    countFrom m block (n + count) = countFrom m block n + countFrom m (block + n) count := by
  simp only [countFrom, Nat.count_add, Nat.add_assoc]

theorem countFrom_one (block : Nat) : countFrom m block 1 = if block ∈ m then 1 else 0 := by
  simp [countFrom, Nat.count_succ]

theorem countFrom_all : countFrom m 0 1024 = m.card := by
  unfold countFrom card toFinset
  rw [Nat.count_eq_card_filter_range]
  simp only [Nat.zero_add]
  rfl

theorem countFrom_byte (i : Nat) {val : BitVec 8} (hval : m.byte i = val)
    (h : val = 0#8 ∨ val = BitVec.allOnes 8) : countFrom m (8 * i) 8 = if val ≠ 0#8 then 8 else 0 := by
  unfold countFrom
  rcases h with rfl | rfl
  · rw [if_neg (by simp), Nat.count_of_forall_not]
    intro k hk
    apply not_mem_of_byte_zero
    rwa [show (8 * i + k) / 8 = i by omega]
  · rw [if_pos (by decide), Nat.count_of_forall]
    intro k hk
    apply mem_of_byte_ones
    rwa [show (8 * i + k) / 8 = i by omega]

theorem countFrom_bit {i off count : Nat} (hoff : off < 8) (hcount : 0 < count) : countFrom m (8 * i + off) count =
      (if m.byte i &&& mask off ≠ 0#8 then 1 else 0) + countFrom m (8 * i + off + 1) (count - 1) := by
  have hsplit : count = 1 + (count - 1) := by omega
  conv_lhs => rw [hsplit, countFrom_add, countFrom_one]
  congr 1
  simp [and_mask_eq_zero hoff]

theorem blockMapIsAllocLoop_spec (count i off did : Nat) (hoff : off < 8) (hfit : 8 * i + off + count ≤ 1024) :
    blockMapIsAllocLoop m count i off did = some (did + countFrom m (8 * i + off) count) := by
  fun_induction blockMapIsAllocLoop m count i off did with
  | case1 => simp [countFrom]
  | case2 count i off did hcount hi val haggregate ih =>
    obtain ⟨rfl, hcount8, hval⟩ := haggregate
    have hcount8 : 8 ≤ count := hcount8
    have hsplit : count = 8 + (count - 8) := by omega
    simp only [dite_eq_ite, CHAR_BIT] at ih ⊢
    rw [ih (by omega) (by omega), Nat.add_assoc, Option.some.injEq, Nat.add_left_cancel_iff,
      Nat.add_zero, Nat.mul_succ, ← countFrom_byte m i rfl hval, ← countFrom_add, ← hsplit]
    rfl
  | case3 count i off did hcount hi val haggregate did' hlast ih =>
    have hlast : off + 1 = 8 := hlast
    rw [ih (by omega) (by omega), Option.some.injEq, Nat.mul_succ, countFrom_bit m hoff (by omega : 0 < count)]
    rw [show 8 * i + 8 + 0 = 8 * i + off + 1 by omega]
    exact Nat.add_assoc _ _ _
  | case4 count i off did hcount hi val haggregate did' hlast ih =>
    have hlast : ¬off + 1 = 8 := hlast
    rw [ih (by omega) (by omega), Option.some.injEq, countFrom_bit m hoff (by omega : 0 < count)]
    exact Nat.add_assoc _ _ _
  | case5 count i off did hcount hi =>
    have hi : ¬i < 128 := hi
    omega

theorem blockMapIsAlloc_spec {block count : Int} (hblock : 0 ≤ block)
    (hcount : 0 < count) (hfit : block + count ≤ 1024) :
    blockMapIsAlloc m block count = some (countFrom m block.toNat count.toNat) := by
  have hpos : 8 * (block.toNat / 8) + block.toNat % 8 = block.toNat := Nat.div_add_mod _ 8
  unfold blockMapIsAlloc
  rw [if_pos (rangeAsserted_eq_true hblock hcount hfit)]
  simp only [CHAR_BIT]
  rw [blockMapIsAllocLoop_spec m _ _ _ _ (Nat.mod_lt _ (by decide)) (by omega), hpos, Nat.zero_add]

/-! ## Section 2: The missing blocks -/

def blockMapInvert (oldmap : BlockMap) : BlockMap := ⟨oldmap.bytes.map fun v => ~~~v⟩

theorem mem_blockMapInvert {m : BlockMap} {k : Nat} (hk : k < 1024) : k ∈ blockMapInvert m ↔ k ∉ m := by
  have hmod : k % 8 < 8 := Nat.mod_lt _ (by decide)
  have hdiv : k / 8 < BLOCKMAPSIZE := by
    have : k / 8 < 128 := by omega
    exact this
  rw [mem_def, mem_def, testBit, testBit, byte, byte, blockMapInvert,
    Vector.getElem?_map, Vector.getElem?_eq_getElem hdiv]
  simp [hmod]

/-- The map of a request for what is missing of a chunk of `csize` blocks. -/
def missingBlocks (blockmap : BlockMap) (csize : Int) : Option BlockMap :=
  -- be careful not to request anything beyond the end of a partial chunk
  if csize < MAXCHUNKSIZE then
    blockMapClear (blockMapInvert blockmap) csize (MAXCHUNKSIZE - csize)
  else
    some (blockMapInvert blockmap)

theorem missingBlocks_spec {csize : Nat} (hle : csize ≤ 1024) :
    ∃ m', missingBlocks m csize = some m' ∧ ∀ k, k ∈ m' ↔ k < csize ∧ k ∉ m := by
  unfold missingBlocks
  split
  · rename_i hlt
    have hlt : csize < 1024 := by exact_mod_cast hlt
    have hpos : 0 < 1024 - csize := by omega
    have hfit : csize + (1024 - csize) ≤ 1024 := by omega
    obtain ⟨m', heq, hmem⟩ := blockMapFill_spec false (blockMapInvert m) hpos hfit
    refine ⟨m', ?_, ?_⟩
    · rw [blockMapClear, ← heq]
      congr 1
      push_cast [hle]
      rfl
    · intro k
      rw [hmem k]
      split
      · rename_i hk
        simp only [Bool.false_eq_true, false_iff, not_and]
        omega
      · rename_i hk
        constructor
        · intro hin
          have hk1024 := lt_of_mem_map hin
          exact ⟨by omega, (mem_blockMapInvert hk1024).mp hin⟩
        · intro hin
          exact (mem_blockMapInvert (by omega)).mpr hin.2
  · rename_i hge
    have hge : ¬csize < 1024 := by exact_mod_cast hge
    refine ⟨_, rfl, ?_⟩
    intro k
    constructor
    · intro hin
      have hk1024 := lt_of_mem_map hin
      exact ⟨by omega, (mem_blockMapInvert hk1024).mp hin⟩
    · intro hin
      exact (mem_blockMapInvert (by omega)).mpr hin.2

theorem card_missingBlocks {m m' : BlockMap} {csize : Nat} (hm : ∀ k ∈ m, k < csize)
    (hmem : ∀ k, k ∈ m' ↔ k < csize ∧ k ∉ m) : m'.card + m.card = csize := by
  have heq : m'.toFinset = Finset.range csize \ m.toFinset := by
    ext k
    simp [hmem k]
  have hsub : m.toFinset ⊆ Finset.range csize := by
    intro k hk
    exact Finset.mem_range.mpr (hm k (mem_toFinset.mp hk))
  have hcard := Finset.card_sdiff_add_card_eq_card hsub
  rw [← heq, Finset.card_range] at hcard
  exact hcard

/-! ## Section 3: Applying a function to each range -/

variable {σ ε : Type}

/-- The two nested loops of `BlockMapApply`, at bit `bit` of byte `i`; `val` is
    what is left of the byte. The function stops the scan by returning true. -/
def blockMapApplyLoop (func : Nat → Nat → Thread σ ε Bool) (blockmap : BlockMap)
    (i bit : Nat) (val : BitVec 8) (block count did : Nat) : Thread σ ε Nat :=
  if i < BLOCKMAPSIZE then
    if bit < CHAR_BIT then
      if val &&& mask bit ≠ 0#8 then
        blockMapApplyLoop func blockmap i (bit + 1) (val &&& ~~~mask bit)
          (if count = 0 then i * CHAR_BIT + bit else block) (count + 1) did
      else if 0 < count then do
        let stop ← func block count
        if stop then
          pure (did + count)
        else if val = 0#8 then
          blockMapApplyLoop func blockmap (i + 1) 0 (blockmap.byte (i + 1)) block 0 (did + count)
        else
          blockMapApplyLoop func blockmap i (bit + 1) val block 0 (did + count)
      else if val = 0#8 then
        blockMapApplyLoop func blockmap (i + 1) 0 (blockmap.byte (i + 1)) block 0 did
      else
        blockMapApplyLoop func blockmap i (bit + 1) val block 0 did
    else
      blockMapApplyLoop func blockmap (i + 1) 0 (blockmap.byte (i + 1)) block count did
  else if 0 < count then do
    -- it makes no difference here whether the function stops the scan
    let _ ← func block count
    pure (did + count)
  else
    pure did
termination_by (BLOCKMAPSIZE - i, CHAR_BIT - bit)

/-- Repeatedly apply a function to each contiguous allocated range. The number of blocks processed. -/
def blockMapApply (func : Nat → Nat → Thread σ ε Bool) (blockmap : BlockMap) : Thread σ ε Nat :=
  blockMapApplyLoop func blockmap 0 0 (blockmap.byte 0) 0 0 0

theorem blockMapApplyLoop_ensures {m : Prop} {P : σ → Prop} {func : Nat → Nat → Thread σ ε Bool}
    (hfunc : ∀ block count, 0 < count → block + count ≤ 1024 → Ensures m P (func block count) fun _ => P)
    (blockmap : BlockMap) (i bit : Nat) (val : BitVec 8) (block count did : Nat) (hi : i ≤ 128)
    (hbit : bit ≤ 8) (hrun : 0 < count → block + count = 8 * i + bit ∧ (i = 128 → bit = 0)) :
    Ensures m P (blockMapApplyLoop func blockmap i bit val block count did) fun _ => P := by
  have hdone : ∀ did : Nat, Ensures m P (pure did : Thread σ ε Nat) fun _ => P :=
    fun _ => ensures_pure fun _ hs => hs
  fun_induction blockMapApplyLoop func blockmap i bit val block count did with
  | case1 i bit val block count did hlt hbit8 hset ih =>
    have hlt : i < 128 := hlt
    have hbit8 : bit < 8 := hbit8
    apply ih hi (by omega)
    intro _
    simp only [CHAR_BIT]
    split <;> omega
  | case2 i bit val block count did hlt hbit8 hset hcount ih1 ih2 =>
    have hlt : i < 128 := hlt
    have hbit8 : bit < 8 := hbit8
    apply (hfunc block count hcount (by omega)).bind
    intro stop
    split
    · exact hdone _
    split
    · exact ih1 (by omega) (by omega) (by omega)
    · exact ih2 hi hbit8 (by omega)
  | case3 i bit block count did hlt hbit8 hset hcount ih =>
    have hlt : i < 128 := hlt
    exact ih (by omega) (by omega) (by omega)
  | case4 i bit val block count did hlt hbit8 hset hcount hzero ih =>
    have hbit8 : bit < 8 := hbit8
    exact ih hi (by omega) (by omega)
  | case5 i bit val block count did hlt hbit8 ih =>
    have hlt : i < 128 := hlt
    have hbit8 : ¬bit < 8 := hbit8
    apply ih (by omega) (by omega)
    intro hcount
    have := hrun hcount
    omega
  | case6 i bit val block count did hge hcount =>
    have hge : ¬i < 128 := hge
    have := hrun hcount
    apply (hfunc block count hcount (by omega)).bind
    intro _
    exact hdone _
  | case7 => exact hdone _

theorem blockMapApply_ensures {m : Prop} {P : σ → Prop} {func : Nat → Nat → Thread σ ε Bool}
    (hfunc : ∀ block count, 0 < count → block + count ≤ 1024 → Ensures m P (func block count) fun _ => P)
    (blockmap : BlockMap) : Ensures m P (blockMapApply func blockmap) fun _ => P := by
  apply blockMapApplyLoop_ensures hfunc
  · omega
  · omega
  · omega

end Emulab.Frisbee
