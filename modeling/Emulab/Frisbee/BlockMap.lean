import Emulab.Frisbee.Decls
import Emulab.Lib.MachineInt

/-! # Block maps

  The operations of a chunk's block map. Each loop works on bytes as the
  code does; its specification is about the set of blocks the map holds.
  An operation whose assertion fails, or that would touch a byte past the
  end of the map, has no result.
-/

namespace Emulab.Frisbee

open MachineInt BitMap

theorem lt_of_mem_map {m : BlockMap} {k : Nat} (h : k ∈ m) : k < 1024 := by
  have : k < 8 * 128 := lt_of_mem h
  omega

/-! ## Section 1: Setting and clearing a range -/

/-- The assertions on a block range that the map operations start with. -/
def rangeAsserted (block count : Int) : Bool :=
  0 ≤ block ∧ 0 < count ∧ block < MAXCHUNKSIZE ∧ toInt32 (block + count) ≤ MAXCHUNKSIZE

/-- The loop of `BlockMapAdd` (`v = true`) and of `BlockMapClear` (`v = false`): `count` blocks from bit
    `off` of byte `i` on, whole bytes at a time where possible. -/
def blockMapFillLoop (v : Bool) (count i off : Nat) (blockmap : BlockMap) : Option BlockMap :=
  if count = 0 then
    some blockmap
  else if i < BLOCKMAPSIZE then
    if off = 0 ∧ CHAR_BIT ≤ count then
      blockMapFillLoop v (count - CHAR_BIT) (i + 1) off (blockmap.setByte i (allBits v))
    else
      let blockmap := blockmap.setByte i (putBit v (blockmap.byte i) off)
      if off + 1 = CHAR_BIT then
        blockMapFillLoop v (count - 1) (i + 1) 0 blockmap
      else
        blockMapFillLoop v (count - 1) i (off + 1) blockmap
  else
    none
termination_by count

/-- Set or clear the blocks of a range. -/
def blockMapFill (v : Bool) (blockmap : BlockMap) (block count : Int) : Option BlockMap :=
  if rangeAsserted block count then
    blockMapFillLoop v count.toNat (block.toNat / CHAR_BIT) (block.toNat % CHAR_BIT) blockmap
  else
    none

def blockMapAdd (blockmap : BlockMap) (block count : Int) : Option BlockMap :=
  blockMapFill true blockmap block count

/-- Remove a range of blocks from the map. -/
def blockMapClear (blockmap : BlockMap) (block count : Int) : Option BlockMap :=
  blockMapFill false blockmap block count

def blockMapInit (block count : Int) : Option BlockMap :=
  if rangeAsserted block count then
    if count = MAXCHUNKSIZE then
      some (fill (BitVec.allOnes 8))
    else
      blockMapAdd ∅ block count
  else
    none

theorem blockMapFillLoop_spec (v : Bool) (count i off : Nat) (m : BlockMap) (hoff : off < 8)
    (hfit : 8 * i + off + count ≤ 1024) :
    ∃ m', blockMapFillLoop v count i off m = some m' ∧ ∀ k, k ∈ m' ↔
        if 8 * i + off ≤ k ∧ k < 8 * i + off + count then v = true else k ∈ m := by
  fun_induction blockMapFillLoop v count i off m with
  | case1 =>
    refine ⟨_, rfl, fun k => ?_⟩
    rw [if_neg (by omega)]
  | case2 count i off m hc hi h ih =>
    simp only [CHAR_BIT] at h ih ⊢
    obtain ⟨rfl, hcount⟩ := h
    obtain ⟨m', hm', hmem⟩ := ih hoff (by omega)
    refine ⟨m', hm', fun k => ?_⟩
    rw [hmem k, mem_setByte_allBits hi]
    split_ifs <;> first | rfl | omega
  | case3 count i off m hc hi h m₁ hlast ih =>
    have hlast : off + 1 = 8 := hlast
    obtain ⟨m', hm', hmem⟩ := ih (by omega) (by omega)
    refine ⟨m', hm', fun k => ?_⟩
    rw [hmem k, mem_setByte_putBit hi hoff]
    split_ifs <;> first | rfl | omega
  | case4 count i off m hc hi h m₁ hlast ih =>
    have hlast : off + 1 ≠ 8 := hlast
    obtain ⟨m', hm', hmem⟩ := ih (by omega) (by omega)
    refine ⟨m', hm', fun k => ?_⟩
    rw [hmem k, mem_setByte_putBit hi hoff]
    split_ifs <;> first | rfl | omega
  | case5 count i off m hc hi =>
    have hi : ¬i < 128 := hi
    omega

theorem rangeAsserted_eq_true {block count : Int} (hblock : 0 ≤ block) (hcount : 0 < count)
    (hfit : block + count ≤ 1024) : rangeAsserted block count = true := by
  have : toInt32 (block + count) = block + count := toInt32_of_range (by omega) (by omega)
  simp only [rangeAsserted, this, MAXCHUNKSIZE]
  exact decide_eq_true (by omega)

variable {block count : Nat}

/-- Filling an asserted range whose end does not wrap around succeeds. -/
theorem blockMapFill_spec (v : Bool) (m : BlockMap) (hcount : 0 < count) (hfit : block + count ≤ 1024) :
    ∃ m', blockMapFill v m block count = some m' ∧
      ∀ k, k ∈ m' ↔ if block ≤ k ∧ k < block + count then v = true else k ∈ m := by
  have hoff : block % CHAR_BIT < 8 := Nat.mod_lt _ (by decide)
  have hpos : 8 * (block / CHAR_BIT) + block % CHAR_BIT = block := Nat.div_add_mod block 8
  obtain ⟨m', hm', hmem⟩ := blockMapFillLoop_spec v count (block / CHAR_BIT) _ m hoff (by omega)
  refine ⟨m', ?_, fun k => ?_⟩
  · rw [blockMapFill, if_pos (rangeAsserted_eq_true (by omega) (by omega) (by omega))]
    exact hm'
  · rw [hmem k, hpos]

theorem blockMapInit_spec (hcount : 0 < count) (hfit : block + count ≤ 1024) :
    ∃ m, blockMapInit block count = some m ∧ ∀ k, k ∈ m ↔ block ≤ k ∧ k < block + count := by
  rw [blockMapInit, if_pos (rangeAsserted_eq_true (by omega) (by omega) (by omega))]
  by_cases hfull : (count : Int) = MAXCHUNKSIZE
  · have hcount : count = 1024 := by exact_mod_cast hfull
    rw [if_pos hfull]
    refine ⟨_, rfl, fun k => ?_⟩
    rw [mem_fill_ones]
    show k < 8 * 128 ↔ _
    omega
  · rw [if_neg hfull, blockMapAdd]
    obtain ⟨m, hm, hmem⟩ := blockMapFill_spec true ∅ hcount hfit
    refine ⟨m, hm, fun k => ?_⟩
    rw [hmem k]
    simp

/-! ## Section 2: Single blocks and scans -/

/-- Mark a block as allocated and return whether it already was. -/
def blockMapAlloc (blockmap : BlockMap) (block : Int) : Option (Bool × BlockMap) :=
  if 0 ≤ block ∧ block < MAXCHUNKSIZE then
    let i := block.toNat / CHAR_BIT
    let off := block.toNat % CHAR_BIT
    if blockmap.byte i &&& mask off = 0#8 then
      some (false, blockmap.setByte i (blockmap.byte i ||| mask off))
    else
      some (true, blockmap)
  else
    none

theorem blockMapAlloc_spec (m : BlockMap) {block : Nat} (h : block < 1024) :
    ∃ m', blockMapAlloc m block = some (decide (block ∈ m), m') ∧ ∀ k, k ∈ m' ↔ k ∈ m ∨ k = block := by
  have hoff : block % 8 < 8 := Nat.mod_lt _ (by decide)
  have hpos : 8 * (block / 8) + block % 8 = block := Nat.div_add_mod block 8
  have hrange : (0 : Int) ≤ block ∧ (block : Int) < MAXCHUNKSIZE := ⟨by omega, by simpa using h⟩
  have hi : block / 8 < 128 := by omega
  have htest : m.byte (block / 8) &&& mask (block % 8) = 0#8 ↔ block ∉ m := by
    rw [and_mask_eq_zero hoff, hpos]
  simp only [blockMapAlloc, if_pos hrange, Int.toNat_natCast, CHAR_BIT, htest]
  by_cases hmem : block ∈ m
  · refine ⟨m, by simp [hmem], fun k => ?_⟩
    constructor
    · exact Or.inl
    · rintro (hk | rfl)
      · exact hk
      · exact hmem
  · refine ⟨m.setByte (block / 8) (m.byte (block / 8) ||| mask (block % 8)),
      by simp only [hmem, not_false_eq_true, if_true, decide_false], fun k => ?_⟩
    rw [mem_setByte_or hi hoff, hpos]

/-- Skip bytes with no block set; the first byte from `i` on that has one. -/
def blockMapSkip (blockmap : BlockMap) (i : Nat) : Nat :=
  if i < BLOCKMAPSIZE then
    if blockmap.byte i ≠ 0#8 then i else blockMapSkip blockmap (i + 1)
  else
    i
termination_by BLOCKMAPSIZE - i

theorem blockMapSkip_spec (m : BlockMap) (i : Nat) (hi : i ≤ 128) :
    i ≤ blockMapSkip m i ∧ blockMapSkip m i ≤ 128 ∧ (∀ j, i ≤ j → j < blockMapSkip m i → m.byte j = 0#8) ∧
      (blockMapSkip m i < 128 → m.byte (blockMapSkip m i) ≠ 0#8) := by
  fun_induction blockMapSkip m i with
  | case1 i hlt hbyte => exact ⟨le_rfl, hi, fun j h1 h2 => by omega, fun _ => hbyte⟩
  | case2 i hlt hbyte ih =>
    have hlt : i < 128 := hlt
    obtain ⟨h1, h2, h3, h4⟩ := ih (by omega)
    refine ⟨by omega, h2, fun j hij hj => ?_, h4⟩
    by_cases hj' : j = i
    · simpa [hj'] using hbyte
    · exact h3 j (by omega) hj
  | case3 i hge => exact ⟨le_rfl, hi, fun j h1 h2 => by omega, fun h => absurd h hge⟩

/-- The scan of one byte for its first block in `BlockMapFirst`. -/
def blockMapFirstLoop (byte : BitVec 8) (bit : Nat) : Option Nat :=
  if bit < CHAR_BIT then
    if byte &&& mask bit ≠ 0#8 then some bit else blockMapFirstLoop byte (bit + 1)
  else
    none
termination_by CHAR_BIT - bit

/-- The first block in the map, or `MAXCHUNKSIZE` if there is none. -/
def blockMapFirst (blockmap : BlockMap) : Nat :=
  let i := blockMapSkip blockmap 0
  let block := i * CHAR_BIT
  if i < BLOCKMAPSIZE then
    match blockMapFirstLoop (blockmap.byte i) 0 with
    | some bit => block + bit
    | none => block
  else
    block

/-! ## Section 3: Extracting the next range -/

/-- The two nested loops of `BlockMapExtract` at bit `bit` of byte `i`: the
    block and count found so far and the map without them. -/
def blockMapExtractLoop (i bit block count : Nat) (blockmap : BlockMap) : Nat × Nat × BlockMap :=
  if i < BLOCKMAPSIZE then
    if bit < CHAR_BIT then
      if blockmap.byte i &&& mask bit ≠ 0#8 then
        blockMapExtractLoop i (bit + 1) (if count = 0 then i * CHAR_BIT + bit else block)
          (count + 1) (blockmap.setByte i (blockmap.byte i &&& ~~~mask bit))
      else if 0 < count then
        (block, count, blockmap)
      else if blockmap.byte i = 0#8 then
        blockMapExtractLoop (i + 1) 0 block count blockmap
      else
        blockMapExtractLoop i (bit + 1) block count blockmap
    else
      blockMapExtractLoop (i + 1) 0 block count blockmap
  else
    (block, count, blockmap)
termination_by (BLOCKMAPSIZE - i, CHAR_BIT - bit)

/-- Extract the next contiguous range of blocks, removing them from the map.
    The block is meaningful only when the count is positive. -/
def blockMapExtract (blockmap : BlockMap) : Nat × Nat × BlockMap :=
  blockMapExtractLoop (blockMapSkip blockmap 0) 0 0 0 blockmap

/-- What has been extracted from `m` once the scan is at position `pos`: the
    run `[block, block + count)` that ends at `pos`, or nothing yet. -/
structure Extracting (m : BlockMap) (pos block count : Nat) (m' : BlockMap) : Prop where
  /-- A run in progress ends at the scan position. -/
  adjacent : 0 < count → block + count = pos
  run : ∀ k, block ≤ k → k < block + count → k ∈ m
  /-- Nothing in front of the run was in the map. -/
  first : ∀ k ∈ m, k < pos → block ≤ k ∧ 0 < count
  /-- Exactly the run has been removed. -/
  rest : ∀ k, k ∈ m' ↔ k ∈ m ∧ ¬(block ≤ k ∧ k < block + count)

/-- `[block, block + count)` is the first maximal run of `m`, and `m'` is what remains. -/
structure Extracted (m : BlockMap) (block count : Nat) (m' : BlockMap) : Prop where
  run : ∀ k, block ≤ k → k < block + count → k ∈ m
  first : ∀ k ∈ m, block ≤ k
  pos : (∃ k, k ∈ m) → 0 < count
  /-- Exactly the run has been removed. -/
  rest : ∀ k, k ∈ m' ↔ k ∈ m ∧ ¬(block ≤ k ∧ k < block + count)

variable {m m' : BlockMap}

/-- Stopping at the end of a run, or at the end of the map, is correct. -/
theorem Extracting.extracted {pos block count : Nat}
    (h : Extracting m pos block count m') (hstop : 0 < count ∨ ∀ k ∈ m, k < pos) : Extracted m block count m' := by
  refine ⟨h.run, fun k hk => ?_, fun ⟨k, hk⟩ => ?_, h.rest⟩
  · by_cases hpos : k < pos
    · exact (h.first k hk hpos).1
    · rcases hstop with hc | hall
      · have := h.adjacent hc
        omega
      · exact absurd (hall k hk) hpos
  · rcases hstop with hc | hall
    · exact hc
    · exact (h.first k hk (hall k hk)).2

theorem Extracting.skip {pos pos' block : Nat} (h : Extracting m pos block 0 m')
    (hnone : ∀ k, pos ≤ k → k < pos' → k ∉ m') : Extracting m pos' block 0 m' := by
  refine ⟨fun hc => absurd hc (lt_irrefl 0), h.run, fun k hk hlt => ?_, h.rest⟩
  by_cases hpos : k < pos
  · exact h.first k hk hpos
  · have : k ∈ m' := (h.rest k).mpr ⟨hk, by omega⟩
    exact absurd this (hnone k (by omega) hlt)

theorem Extracting.take {i bit block count : Nat} (hi : i < 128) (hbit : bit < 8)
    (h : Extracting m (8 * i + bit) block count m') (hset : 8 * i + bit ∈ m') :
    Extracting m (8 * i + (bit + 1)) (if count = 0 then i * CHAR_BIT + bit else block) (count + 1)
      (m'.setByte i (m'.byte i &&& ~~~mask bit)) := by
  have hmem : 8 * i + bit ∈ m := ((h.rest _).mp hset).1
  have hblock : (if count = 0 then i * CHAR_BIT + bit else block) + count = 8 * i + bit := by
    split_ifs with hc
    · simp only [CHAR_BIT]; omega
    · exact h.adjacent (by omega)
  have hold : 0 < count → (if count = 0 then i * CHAR_BIT + bit else block) = block := by
    intro hc
    rw [if_neg (by omega)]
  generalize (if count = 0 then i * CHAR_BIT + bit else block) = b at *
  refine ⟨fun _ => by omega, fun k h1 h2 => ?_, fun k hk hlt => ?_, fun k => ?_⟩
  · by_cases hk : k = 8 * i + bit
    · exact hk ▸ hmem
    · have := hold (by omega)
      exact h.run k (by omega) (by omega)
  · refine ⟨?_, by omega⟩
    by_cases hk' : k < 8 * i + bit
    · obtain ⟨hb, hc⟩ := h.first k hk hk'
      rw [hold hc]
      exact hb
    · omega
  · have hiff : (¬(block ≤ k ∧ k < block + count) ∧ k ≠ 8 * i + bit) ↔ ¬(b ≤ k ∧ k < b + (count + 1)) := by
      rcases Nat.eq_zero_or_pos count with hc | hc
      · omega
      · have := hold hc
        omega
    rw [mem_setByte_andNot hi hbit, h.rest k, and_assoc, hiff]

theorem blockMapExtractLoop_spec (m : BlockMap) (i bit block count : Nat) (m' : BlockMap)
    (hi : i ≤ 128) (hbit : bit ≤ 8) (h : Extracting m (8 * i + bit) block count m') :
    Extracted m (blockMapExtractLoop i bit block count m').1
      (blockMapExtractLoop i bit block count m').2.1 (blockMapExtractLoop i bit block count m').2.2 := by
  fun_induction blockMapExtractLoop i bit block count m' with
  | case1 i bit block count m' hlt hb hset ih =>
    have hlt : i < 128 := hlt
    have hb : bit < 8 := hb
    refine ih hi (by omega) (h.take hlt hb ?_)
    by_contra hn
    exact hset ((and_mask_eq_zero hb).mpr hn)
  | case2 i bit block count m' hlt hb hclear hc => exact h.extracted (Or.inl hc)
  | case3 i bit block count m' hlt hb hclear hc hzero ih =>
    have hlt : i < 128 := hlt
    obtain rfl : count = 0 := by omega
    refine ih (by omega) (by omega) (h.skip fun k h1 h2 => ?_)
    exact not_mem_of_byte_zero (by rwa [show k / 8 = i by omega])
  | case4 i bit block count m' hlt hb hclear hc hzero ih =>
    have hb : bit < 8 := hb
    obtain rfl : count = 0 := by omega
    refine ih hi (by omega) (h.skip fun k h1 h2 => ?_)
    obtain rfl : k = 8 * i + bit := by omega
    exact (and_mask_eq_zero hb).mp (by simpa using hclear)
  | case5 i bit block count m' hlt hb ih =>
    have hlt : i < 128 := hlt
    have hb : ¬bit < 8 := hb
    obtain rfl : bit = 8 := by omega
    exact ih (by omega) (by omega) h
  | case6 i bit block count m' hge =>
    have hge : ¬i < 128 := hge
    refine h.extracted (Or.inr fun k hk => ?_)
    have := lt_of_mem_map hk
    omega

theorem blockMapExtract_spec (m : BlockMap) :
    Extracted m (blockMapExtract m).1 (blockMapExtract m).2.1 (blockMapExtract m).2.2 := by
  obtain ⟨-, hi, hzero, -⟩ := blockMapSkip_spec m 0 (by omega)
  apply blockMapExtractLoop_spec m _ _ _ _ _ hi (by omega)
  refine ⟨fun hc => absurd hc (lt_irrefl 0), fun k h1 h2 => by omega, fun k hk hlt => ?_,
    fun k => ⟨fun hk => ⟨hk, by omega⟩, fun hk => hk.1⟩⟩
  exact absurd hk (not_mem_of_byte_zero (hzero (k / 8) (by omega) (by omega)))

theorem Extracted.card (h : Extracted m block count m') : m'.card + count = m.card :=
  card_remove_run h.run h.rest

theorem Extracted.le (h : Extracted m block count m') (hc : 0 < count) : block + count ≤ 1024 := by
  have := lt_of_mem_map (h.run (block + count - 1) (by omega) (by omega))
  omega

/-! ## Section 4: Merging and complementing -/

/-- The bit loop of `BlockMapMerge` for byte `i`. -/
def blockMapMergeBits (frombyte : BitVec 8) (i bit : Nat) (tomap : BlockMap) (did : Nat) : BlockMap × Nat :=
  if bit < CHAR_BIT then
    if frombyte &&& mask bit ≠ 0#8 ∧ tomap.byte i &&& mask bit = 0#8 then
      blockMapMergeBits frombyte i (bit + 1) (tomap.setByte i (tomap.byte i ||| mask bit)) (did + 1)
    else
      blockMapMergeBits frombyte i (bit + 1) tomap did
  else
    (tomap, did)
termination_by CHAR_BIT - bit

/-- The byte loop of `BlockMapMerge`. -/
def blockMapMergeLoop (frommap : BlockMap) (i : Nat) (tomap : BlockMap) (did : Nat) : BlockMap × Nat :=
  if i < BLOCKMAPSIZE then
    if frommap.byte i = 0#8 ∨ tomap.byte i = BitVec.allOnes 8 ∨ frommap.byte i = tomap.byte i then
      blockMapMergeLoop frommap (i + 1) tomap did
    else
      let (tomap, did) := blockMapMergeBits (frommap.byte i) i 0 tomap did
      blockMapMergeLoop frommap (i + 1) tomap did
  else
    (tomap, did)
termination_by BLOCKMAPSIZE - i

/-- Merge the blocks of `frommap` into `tomap`; also how many were new. -/
def blockMapMerge (frommap tomap : BlockMap) : BlockMap × Nat :=
  blockMapMergeLoop frommap 0 tomap 0

/-- `m'` is `m` together with the blocks of `frommap` in `[lo, hi)`, `did` of which are new. -/
structure Merged (frommap m : BlockMap) (lo hi : Nat) (m' : BlockMap) (did : Nat) : Prop where
  mem : ∀ k, k ∈ m' ↔ k ∈ m ∨ (k ∈ frommap ∧ lo ≤ k ∧ k < hi)
  card : m'.card = m.card + did

theorem Merged.trans {f m m₁ m₂ : BlockMap} {a b c d₁ d₂ : Nat} (h₁ : Merged f m a b m₁ d₁)
    (h₂ : Merged f m₁ b c m₂ d₂) (hab : a ≤ b) (hbc : b ≤ c) : Merged f m a c m₂ (d₁ + d₂) := by
  refine ⟨fun k => ?_, by rw [h₂.card, h₁.card]; omega⟩
  rw [h₂.mem k, h₁.mem k]
  constructor
  · rintro ((h | ⟨h, h1, h2⟩) | ⟨h, h1, h2⟩)
    · exact Or.inl h
    · exact Or.inr ⟨h, h1, by omega⟩
    · exact Or.inr ⟨h, by omega, h2⟩
  · rintro (h | ⟨h, h1, h2⟩)
    · exact Or.inl (Or.inl h)
    · by_cases hkb : k < b
      · exact Or.inl (Or.inr ⟨h, h1, hkb⟩)
      · exact Or.inr ⟨h, by omega, h2⟩

theorem Merged.refl {f m : BlockMap} {a b : Nat} (h : ∀ k ∈ f, a ≤ k → k < b → k ∈ m) : Merged f m a b m 0 := by
  refine ⟨fun k => ⟨Or.inl, ?_⟩, (Nat.add_zero _).symm⟩
  rintro (hk | ⟨hk, h1, h2⟩)
  · exact hk
  · exact h k hk h1 h2

theorem blockMapMergeBits_spec (f : BlockMap) (i bit : Nat) (m : BlockMap) (did : Nat)
    (hi : i < 128) (hbit : bit ≤ 8) :
    ∃ new, (blockMapMergeBits (f.byte i) i bit m did).2 = did + new ∧
      Merged f m (8 * i + bit) (8 * i + 8) (blockMapMergeBits (f.byte i) i bit m did).1 new := by
  generalize hbyte : f.byte i = byte
  fun_induction blockMapMergeBits byte i bit m did with
  | case1 bit m did hlt hnew ih =>
    subst hbyte
    have hlt : bit < 8 := hlt
    have hf : 8 * i + bit ∈ f := by
      by_contra hn
      exact hnew.1 ((and_mask_eq_zero hlt).mpr hn)
    have hm : 8 * i + bit ∉ m := (and_mask_eq_zero hlt).mp hnew.2
    have hstep : Merged f m (8 * i + bit) (8 * i + (bit + 1)) (m.setByte i (m.byte i ||| mask bit)) 1 := by
      have hmem : ∀ k, k ∈ m.setByte i (m.byte i ||| mask bit) ↔ k ∈ m ∨ k = 8 * i + bit :=
        fun k => mem_setByte_or hi hlt
      refine ⟨fun k => ?_, card_insert hm hmem⟩
      rw [hmem k]
      constructor
      · rintro (h | rfl)
        · exact Or.inl h
        · exact Or.inr ⟨hf, by omega, by omega⟩
      · rintro (h | ⟨h, h1, h2⟩)
        · exact Or.inl h
        · exact Or.inr (by omega)
    obtain ⟨new, hdid, hmerge⟩ := ih (by omega)
    exact ⟨1 + new, by omega, hstep.trans hmerge (by omega) (by omega)⟩
  | case2 bit m did hlt hold ih =>
    subst hbyte
    have hlt : bit < 8 := hlt
    have hstep : Merged f m (8 * i + bit) (8 * i + (bit + 1)) m 0 := by
      apply Merged.refl
      intro k hk h1 h2
      obtain rfl : k = 8 * i + bit := by omega
      by_contra hn
      exact hold ⟨fun h => (and_mask_eq_zero hlt).mp h hk, (and_mask_eq_zero hlt).mpr hn⟩
    obtain ⟨new, hdid, hmerge⟩ := ih (by omega)
    exact ⟨0 + new, by omega, hstep.trans hmerge (by omega) (by omega)⟩
  | case3 bit m did hge =>
    have hge : ¬bit < 8 := hge
    exact ⟨0, rfl, Merged.refl fun k _ h1 h2 => by omega⟩

theorem blockMapMergeLoop_spec (f : BlockMap) (i : Nat) (m : BlockMap) (did : Nat) (hi : i ≤ 128) :
    ∃ new, (blockMapMergeLoop f i m did).2 = did + new ∧
      Merged f m (8 * i) 1024 (blockMapMergeLoop f i m did).1 new := by
  fun_induction blockMapMergeLoop f i m did with
  | case1 i m did hlt hskip ih =>
    have hlt : i < 128 := hlt
    have hstep : Merged f m (8 * i) (8 * (i + 1)) m 0 := by
      apply Merged.refl
      intro k hk h1 h2
      have hki : k / 8 = i := by omega
      rcases hskip with hz | ho | he
      · exact absurd hk (not_mem_of_byte_zero (hki.symm ▸ hz))
      · exact mem_of_byte_ones (hki.symm ▸ ho)
      · rw [mem_def, testBit, hki] at hk ⊢
        exact he ▸ hk
    obtain ⟨new, hdid, hmerge⟩ := ih (by omega)
    exact ⟨0 + new, by omega, hstep.trans hmerge (by omega) (by omega)⟩
  | case2 i m did hlt hskip m₁ did₁ heq ih =>
    have hlt : i < 128 := hlt
    obtain ⟨new₁, hdid₁, hmerge₁⟩ := blockMapMergeBits_spec f i 0 m did hlt (by omega)
    rw [heq] at hdid₁ hmerge₁
    obtain ⟨new₂, hdid₂, hmerge₂⟩ := ih (by omega)
    refine ⟨new₁ + new₂, ?_, hmerge₁.trans hmerge₂ (by omega) (by omega)⟩
    simp only at hdid₁
    omega
  | case3 i m did hge =>
    have hge : ¬i < 128 := hge
    exact ⟨0, rfl, Merged.refl fun k _ h1 h2 => by omega⟩

theorem blockMapMerge_spec (frommap tomap : BlockMap) :
    (∀ k, k ∈ (blockMapMerge frommap tomap).1 ↔ k ∈ tomap ∨ k ∈ frommap) ∧
      (blockMapMerge frommap tomap).1.card = tomap.card + (blockMapMerge frommap tomap).2 := by
  obtain ⟨new, hdid, hmem, hcard⟩ := blockMapMergeLoop_spec frommap 0 tomap 0 (by omega)
  refine ⟨fun k => ?_, ?_⟩
  · rw [blockMapMerge, hmem k]
    constructor
    · rintro (h | ⟨h, -, -⟩)
      · exact Or.inl h
      · exact Or.inr h
    · rintro (h | h)
      · exact Or.inl h
      · exact Or.inr ⟨h, by omega, lt_of_mem_map h⟩
  · rw [blockMapMerge, hcard]
    omega

end Emulab.Frisbee
