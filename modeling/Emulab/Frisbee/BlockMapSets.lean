import Emulab.Frisbee.BlockMapQuery
import Emulab.Lib.Extent

/-! # Block maps as finite sets

  What the map operations are for: each computes an operation on the set of
  blocks that the map holds. The ranges that are extracted, and those that a
  function is applied to, are the maximal runs of the set.
-/

namespace Emulab.Frisbee

open BitMap MachineInt Thread Extent

/-! ## Section 1: Set operations -/

theorem toFinset_blockMapFill (v : Bool) (m : BlockMap) {block count : Nat} (hcount : 0 < count)
    (hfit : block + count ≤ 1024) :
    ∃ m', blockMapFill v m block count = some m' ∧
      m'.toFinset = if v then m.toFinset ∪ Finset.Ico block (block + count)
        else m.toFinset \ Finset.Ico block (block + count) := by
  obtain ⟨m', hm', hmem⟩ := blockMapFill_spec v m hcount hfit
  refine ⟨m', hm', ?_⟩
  ext k
  simp only [mem_toFinset, hmem k, ← Finset.mem_Ico]
  by_cases hk : k ∈ Finset.Ico block (block + count)
  · cases v <;> simp [-Finset.mem_Ico, hk]
  · cases v <;> simp [-Finset.mem_Ico, hk]

theorem countFrom_eq_card (m : BlockMap) (block count : Nat) :
    countFrom m block count = (m.toFinset ∩ Finset.Ico block (block + count)).card := by
  induction count with
  | zero => simp [countFrom]
  | succ count ih =>
    have hsplit : Finset.Ico block (block + (count + 1)) =
        insert (block + count) (Finset.Ico block (block + count)) := by
      ext k
      simp only [Finset.mem_Ico, Finset.mem_insert]
      omega
    rw [countFrom_add, countFrom_one, ih, hsplit]
    by_cases hmem : block + count ∈ m
    · rw [if_pos hmem, Finset.inter_insert_of_mem (mem_toFinset.mpr hmem), Finset.card_insert_of_notMem (by simp)]
    · rw [if_neg hmem, Finset.inter_insert_of_notMem (by simpa using hmem), Nat.add_zero]

theorem toFinset_blockMapMerge (frommap tomap : BlockMap) :
    (blockMapMerge frommap tomap).1.toFinset = tomap.toFinset ∪ frommap.toFinset ∧
      (blockMapMerge frommap tomap).2 = (frommap.toFinset \ tomap.toFinset).card := by
  obtain ⟨hmem, hcard⟩ := blockMapMerge_spec frommap tomap
  have hset : (blockMapMerge frommap tomap).1.toFinset = tomap.toFinset ∪ frommap.toFinset := by
    ext k
    simp [hmem k]
  refine ⟨hset, ?_⟩
  unfold card at hcard
  rw [hset, ← Finset.union_sdiff_self_eq_union, Finset.card_union_of_disjoint Finset.disjoint_sdiff] at hcard
  omega

/-! ## Section 2: Maximal runs -/

theorem blockMapExtractLoop_stops (i bit block count : Nat) (m : BlockMap) (hbit : bit ≤ 8)
    (hend : 0 < count → block + count = 8 * i + bit) :
    0 < (blockMapExtractLoop i bit block count m).2.1 →
      (blockMapExtractLoop i bit block count m).1 + (blockMapExtractLoop i bit block count m).2.1 ∉
        (blockMapExtractLoop i bit block count m).2.2 := by
  fun_induction blockMapExtractLoop i bit block count m with
  | case1 i bit block count m hlt hb hset ih =>
    have hb : bit < 8 := hb
    apply ih (by omega)
    simp only [CHAR_BIT]
    split <;> omega
  | case2 i bit block count m hlt hb hclear hc =>
    intro _
    rw [hend hc]
    exact (and_mask_eq_zero hb).mp (by simpa using hclear)
  | case3 i bit block count m hlt hb hclear hc hzero ih => exact ih (by omega) (by omega)
  | case4 i bit block count m hlt hb hclear hc hzero ih =>
    have hb : bit < 8 := hb
    exact ih (by omega) (by omega)
  | case5 i bit block count m hlt hb ih =>
    have hb : ¬bit < 8 := hb
    exact ih (by omega) (by omega)
  | case6 i bit block count m hge =>
    have hge : ¬i < 128 := hge
    intro hc hmem
    have : block + count < 1024 := lt_of_mem_map hmem
    have := hend hc
    omega

theorem blockMapExtract_isRun {m : BlockMap} (h : m.toFinset.Nonempty) :
    IsRun (· ∈ m) (blockMapExtract m).1 ((blockMapExtract m).1 + (blockMapExtract m).2.1) := by
  obtain ⟨hrun, hfirst, hpos, hrest⟩ := blockMapExtract_spec m
  obtain ⟨k, hk⟩ := h
  have hcount := hpos ⟨k, mem_toFinset.mp hk⟩
  have hstops : (blockMapExtract m).1 + (blockMapExtract m).2.1 ∉ (blockMapExtract m).2.2 :=
    blockMapExtractLoop_stops (blockMapSkip m 0) 0 0 0 m (by omega) (by omega) hcount
  refine ⟨by omega, hrun, fun x hx hmem => ?_, fun hmem => hstops ((hrest _).mpr ⟨hmem, by omega⟩)⟩
  have := hfirst x hmem
  omega

/-! ## Section 3: What a function is applied to -/

variable {σ ε : Type}

/-- A function is called for one range after the other, until it returns true.
    How many blocks the ranges have for which it has been called. -/
def visitRanges (func : Nat → Nat → Thread σ ε Bool) : List Extent → Nat → Thread σ ε Nat
  | [], did => pure did
  | r :: rest, did => do
    let stop ← func r.start r.size
    if stop then pure (did + r.size) else visitRanges func rest (did + r.size)

/-- `rest` has, in byte `i`, what is left of the byte at bit `bit`. -/
structure LeftOf (m rest : BlockMap) (i bit : Nat) (val : BitVec 8) : Prop where
  byte : rest.byte i = val
  mem : ∀ j < 8, 8 * i + j ∈ rest ↔ bit ≤ j ∧ 8 * i + j ∈ m

theorem leftOf_byte (m : BlockMap) (i : Nat) : LeftOf m m i 0 (m.byte i) :=
  ⟨rfl, by simp⟩

theorem LeftOf.not_mem {m rest : BlockMap} {i bit : Nat} {val : BitVec 8} (h : LeftOf m rest i bit val)
    (hbit : bit < 8) (hclear : val &&& mask bit = 0#8) : 8 * i + bit ∉ m := by
  rw [← h.byte, and_mask_eq_zero hbit, h.mem bit hbit] at hclear
  exact fun hmem => hclear ⟨le_rfl, hmem⟩

theorem LeftOf.not_mem_of_zero {m rest : BlockMap} {i bit k : Nat} {val : BitVec 8}
    (h : LeftOf m rest i bit val) (hzero : val = 0#8) (hle : 8 * i + bit ≤ k) (hlt : k < 8 * i + 8) : k ∉ m := by
  have hnot : k ∉ rest := not_mem_of_byte_zero (by rw [show k / 8 = i by omega, h.byte, hzero])
  have hiff := h.mem (k - 8 * i) (by omega)
  rw [show 8 * i + (k - 8 * i) = k by omega] at hiff
  exact fun hmem => hnot (hiff.mpr ⟨by omega, hmem⟩)

theorem LeftOf.next {m rest : BlockMap} {i bit : Nat} {val : BitVec 8} (h : LeftOf m rest i bit val)
    (hbit : bit < 8) (hclear : val &&& mask bit = 0#8) : LeftOf m rest i (bit + 1) val := by
  refine ⟨h.byte, fun j hj => ?_⟩
  rw [h.mem j hj]
  constructor
  · intro hj
    have hne : j ≠ bit := fun heq => h.not_mem hbit hclear (heq ▸ hj.2)
    exact ⟨by omega, hj.2⟩
  · exact fun hj => ⟨by omega, hj.2⟩

theorem blockMapApplyLoop_eq (func : Nat → Nat → Thread σ ε Bool) (m rest : BlockMap)
    (i bit : Nat) (val : BitVec 8) (block count did : Nat) (runs : List Extent) (hi : i ≤ 128)
    (hbit : bit ≤ 8) (hlast : i = 128 → bit = 0) (hleft : LeftOf m rest i bit val)
    (hscan : Scanned (· ∈ m) 0 (8 * i + bit) (if 0 < count then some block else none) runs)
    (hend : 0 < count → block + count = 8 * i + bit) :
    ∃ l, blockMapApplyLoop func m i bit val block count did = visitRanges func l did ∧
      Scanned (· ∈ m) 0 1025 none (runs ++ l) := by
  have hbeyond : 1024 ∉ m := fun hmem => absurd (lt_of_mem_map hmem) (lt_irrefl _)
  fun_induction blockMapApplyLoop func m i bit val block count did generalizing rest runs with
  | case1 i bit val block count did hlt hb hset ih =>
    have hlt : i < 128 := hlt
    have hb : bit < 8 := hb
    have hmem : 8 * i + bit ∈ m := by
      by_contra hn
      rw [← hleft.byte] at hset
      exact hset ((and_mask_eq_zero hb).mpr fun h => hn ((hleft.mem bit hb).mp h).2)
    refine ih (rest.setByte i (val &&& ~~~mask bit)) runs hi (by omega) (by omega) ⟨?_, fun j hj => ?_⟩ ?_ ?_
    · rw [byte_setByte, if_pos ⟨rfl, hlt⟩]
    · rw [← hleft.byte, mem_setByte_andNot hlt hb, hleft.mem j hj]
      constructor
      · exact fun h => ⟨by omega, h.1.2⟩
      · exact fun h => ⟨⟨by omega, h.2⟩, by omega⟩
    · have hext := hscan.extend hmem
      rw [if_pos (Nat.succ_pos count)]
      simp only [CHAR_BIT, dite_eq_ite]
      by_cases hc : 0 < count
      · rw [if_pos hc, Option.getD_some] at hext
        rw [if_neg (by omega)]
        exact hext
      · rw [if_neg hc, Option.getD_none] at hext
        rw [if_pos (by omega), Nat.mul_comm i 8]
        exact hext
    · simp only [CHAR_BIT]
      split <;> omega
  | case2 i bit val block count did hlt hb hclear hc ih1 ih2 =>
    have hlt : i < 128 := hlt
    have hb : bit < 8 := hb
    rw [if_pos hc] at hscan
    have hclose := hscan.close (hleft.not_mem hb (by simpa using hclear))
    rw [show 8 * i + bit - block = count by have := hend hc; omega] at hclose
    -- the rest of the scan visits `l`, so all of it visits the run and then `l`
    by_cases hzero : val = 0#8
    · have hskip : Extent.Scanned _ _ (8 * (i + 1) + 0) none _ := hclose.skips (by omega) fun k h1 h2 =>
        hleft.not_mem_of_zero hzero (by omega) (by omega)
      obtain ⟨l, hl, hdone⟩ := ih1 m _ (Nat.succ_le_of_lt hlt) (by omega) (fun _ => rfl)
        (leftOf_byte m (i + 1)) hskip (by omega)
      refine ⟨⟨block, count⟩ :: l, ?_, by simpa using hdone⟩
      simp only [visitRanges, if_pos hzero, hl]
    · obtain ⟨l, hl, hdone⟩ := ih2 rest _ hi hb (by omega)
        (hleft.next hb (by simpa using hclear)) hclose (by omega)
      refine ⟨⟨block, count⟩ :: l, ?_, by simpa using hdone⟩
      simp only [visitRanges, if_neg hzero, hl]
  | case3 i bit block count did hlt hb hc hclear ih =>
    rw [if_neg hc] at hscan
    refine ih m runs (Nat.succ_le_of_lt hlt) (by omega) (fun _ => rfl) (leftOf_byte m (i + 1)) ?_ (by omega)
    exact hscan.skips (by omega) fun k h1 h2 => hleft.not_mem_of_zero rfl (by omega) (by omega)
  | case4 i bit val block count did hlt hb hclear hc hzero ih =>
    have hlt : i < 128 := hlt
    have hb : bit < 8 := hb
    rw [if_neg hc] at hscan
    exact ih rest runs hi hb (by omega) (hleft.next hb (by simpa using hclear))
      (hscan.skip (hleft.not_mem hb (by simpa using hclear))) (by omega)
  | case5 i bit val block count did hlt hb ih =>
    have hb : ¬bit < 8 := hb
    obtain rfl : bit = 8 := by omega
    exact ih m runs (Nat.succ_le_of_lt hlt) (by omega) (fun _ => rfl) (leftOf_byte m (i + 1)) hscan hend
  | case6 i bit val block count did hge hc =>
    have hge : ¬i < 128 := hge
    obtain rfl : i = 128 := by omega
    obtain rfl := hlast rfl
    rw [if_pos hc] at hscan
    have hclose := hscan.close hbeyond
    rw [show 8 * 128 + 0 - block = count by have := hend hc; omega] at hclose
    refine ⟨[⟨block, count⟩], ?_, hclose⟩
    simp only [visitRanges, ite_self]
  | case7 i bit val block count did hge hc =>
    have hge : ¬i < 128 := hge
    obtain rfl : i = 128 := by omega
    obtain rfl := hlast rfl
    rw [if_neg hc] at hscan
    exact ⟨[], rfl, by simpa using hscan.skip hbeyond⟩

/-! ## Section 4: The operations refine set operations -/

theorem toFinset_blockMapInvert (m : BlockMap) : (blockMapInvert m).toFinset = Finset.range 1024 \ m.toFinset := by
  ext k
  rw [mem_toFinset, Finset.mem_sdiff, Finset.mem_range, mem_toFinset]
  constructor
  · exact fun h => ⟨lt_of_mem_map h, (mem_blockMapInvert (lt_of_mem_map h)).mp h⟩
  · exact fun h => (mem_blockMapInvert h.1).mpr h.2

theorem exists_blockMapApply_eq (func : Nat → Nat → Thread σ ε Bool) (m : BlockMap) :
    ∃ l : List Extent, l.Pairwise (fun e e' => e.stop < e'.start) ∧
      (∀ lo hi, IsRun (· ∈ m) lo hi ↔ ∃ e ∈ l, e.start = lo ∧ e.stop = hi) ∧
      (l.map size).sum = m.card ∧ blockMapApply func m = visitRanges func l 0 := by
  obtain ⟨l, hl, hdone⟩ := blockMapApplyLoop_eq func m m 0 0 (m.byte 0) 0 0 0 [] (by omega) (by omega)
    (fun _ => rfl) (leftOf_byte m 0) (scanned_init _ 0) (by omega)
  have hnumbers : l.flatMap numbers = (List.range' 0 1025).filter (· ∈ m) := by
    simpa using hdone.numbers
  have hcovered : Extent.Covered l = (· ∈ m) := by
    funext k
    rw [← mem_flatMap_numbers, hnumbers, List.mem_filter, List.mem_range'_1, decide_eq_true_eq, eq_iff_iff]
    constructor
    · exact fun h => h.2
    · intro h
      have := lt_of_mem_map h
      exact ⟨by omega, h⟩
  have hset : m.toFinset = (l.flatMap numbers).toFinset := by
    ext k
    rw [mem_toFinset, List.mem_toFinset, mem_flatMap_numbers, hcovered]
  have hnodup : (l.flatMap numbers).Nodup := by
    rw [hnumbers]
    exact (List.nodup_range' 1).filter _
  refine ⟨l, hdone.separated.apart, fun lo hi => ?_, ?_, hl⟩
  · rw [← hcovered]
    exact hdone.separated.isRun_iff
  · rw [card, hset, List.toFinset_card_of_nodup hnodup, List.length_flatMap]
    simp [numbers]

/-- How many blocks in front of the range's first missing block are in the map. -/
def leadingRun (m : BlockMap) (block count : Nat) : Nat :=
  ((List.range' block count).takeWhile (· ∈ m)).length

theorem blockMap_refines (m : BlockMap) : (∀ block count : Nat, 0 < count → block + count ≤ 1024 →
      (∃ m', blockMapInit block count = some m' ∧ m'.toFinset = Finset.Ico block (block + count)) ∧
      (∃ m', blockMapAdd m block count = some m' ∧ m'.toFinset = m.toFinset ∪ Finset.Ico block (block + count)) ∧
      (∃ m', blockMapClear m block count = some m' ∧ m'.toFinset = m.toFinset \ Finset.Ico block (block + count)) ∧
      blockMapIsAlloc m block count =
        some (m.toFinset ∩ Finset.Ico block (block + count)).card) ∧
    (∀ block : Nat, block < 1024 → ∃ m', blockMapAlloc m block = some (decide (block ∈ m.toFinset), m') ∧
        m'.toFinset = insert block m.toFinset) ∧
    (∀ tomap, (blockMapMerge m tomap).1.toFinset = tomap.toFinset ∪ m.toFinset ∧
      (blockMapMerge m tomap).2 = (m.toFinset \ tomap.toFinset).card) ∧
    (blockMapInvert m).toFinset = Finset.range 1024 \ m.toFinset ∧
    (∀ block count m', blockMapExtract m = (block, count, m') →
      m'.toFinset = m.toFinset \ Finset.Ico block (block + count) ∧
      (m.toFinset.Nonempty → IsRun (· ∈ m.toFinset) block (block + count) ∧ ∀ k ∈ m.toFinset, block ≤ k) ∧
      (¬m.toFinset.Nonempty → count = 0)) ∧
    ∀ {σ ε : Type} (func : Nat → Nat → Thread σ ε Bool),
      ∃ l : List Extent, l.Pairwise (fun e e' => e.stop < e'.start) ∧
        (∀ lo hi, IsRun (· ∈ m.toFinset) lo hi ↔ ∃ e ∈ l, e.start = lo ∧ e.stop = hi) ∧
        (l.map size).sum = m.toFinset.card ∧ blockMapApply func m = visitRanges func l 0 := by
  refine ⟨fun block count hcount hfit => ⟨?_, ?_, ?_, ?_⟩, fun block hblock => ?_,
    toFinset_blockMapMerge m, toFinset_blockMapInvert m, fun block count m' h => ?_, fun func => ?_⟩
  · obtain ⟨m', hm', hmem⟩ := blockMapInit_spec hcount hfit
    refine ⟨m', hm', ?_⟩
    ext k
    rw [mem_toFinset, hmem k, Finset.mem_Ico]
  · exact toFinset_blockMapFill true m hcount hfit
  · exact toFinset_blockMapFill false m hcount hfit
  · rw [blockMapIsAlloc_spec m (by omega) (by omega) (by omega), Int.toNat_natCast, Int.toNat_natCast,
      countFrom_eq_card]
  · obtain ⟨m', hm', hmem⟩ := blockMapAlloc_spec m hblock
    refine ⟨m', by simpa using hm', ?_⟩
    ext k
    rw [mem_toFinset, hmem k, Finset.mem_insert, mem_toFinset, or_comm]
  · have hspec := blockMapExtract_spec m
    have hrun := blockMapExtract_isRun (m := m)
    rw [h] at hspec hrun
    refine ⟨?_, fun hne => ?_, fun hempty => ?_⟩
    · ext k
      rw [mem_toFinset, hspec.rest k, Finset.mem_sdiff, mem_toFinset, Finset.mem_Ico]
    · simp only [mem_toFinset]
      exact ⟨hrun hne, hspec.first⟩
    · by_contra hc
      have hpos : block < block + count := Nat.lt_add_of_pos_right (Nat.pos_of_ne_zero hc)
      exact hempty ⟨block, mem_toFinset.mpr (hspec.run block le_rfl hpos)⟩
  · simp only [mem_toFinset]
    exact exists_blockMapApply_eq func m

/-- A block behind a gap is counted. -/
theorem isAlloc_beyond_leadingRun : blockMapIsAlloc ((∅ : BlockMap).setByte 0 5#8) 0 3 = some 2 ∧
      leadingRun ((∅ : BlockMap).setByte 0 5#8) 0 3 = 1 := by
  have hmem : ∀ k, k ∈ (∅ : BlockMap).setByte 0 5#8 ↔ k = 0 ∨ k = 2 := by
    intro k
    rw [mem_setByte (by decide)]
    split
    · have hk : k < 8 := by omega
      interval_cases k <;> decide
    · simp only [not_mem_empty, false_iff]
      omega
  constructor
  · rw [blockMapIsAlloc_spec _ (by decide) (by decide) (by decide)]
    simp [countFrom, Nat.count_succ, hmem]
  · simp [leadingRun, hmem, List.range']

end Emulab.Frisbee
