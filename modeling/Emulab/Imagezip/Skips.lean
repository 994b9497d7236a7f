import Emulab.Imagezip.Fixups
import Emulab.Lib.BubbleSort

/-! # Free and allocated ranges

  The readers of file systems report ranges of free sectors. They are sorted and
  merged, those that are too small are dropped, and what is left is turned into
  the list of ranges that go to the image.
-/

namespace Emulab.Imagezip

open MachineInt Extent List

/-! ## Section 1: The lists -/

/-- Add a range of free space to skip. -/
def addskip (start size : Nat) (skips : List Range) : List Range := ⟨start, size⟩ :: skips

/-- Add an explicit valid range. They are added to the end. -/
def addvalid (start size : Nat) (ranges : List Range) : List Range := ranges ++ [⟨start, size⟩]

/-- Sort ranges by their starts, with no other comparison. -/
def sortrange (head : List Range) : List Range := BubbleSort.sort (fun r r' => r.start ≤ r'.start) head

/-- Merge the ranges that follow `prange` without a gap into it, and go on. Also
    how many entries were freed. -/
def mergeFrom (prange : Range) : List Range → List Range × Nat
  | [] => ([prange], 0)
  | next :: rest =>
    if rangeEnd prange = next.start then
      let (ranges, freed) := mergeFrom ⟨prange.start, addU32 prange.size next.size⟩ rest
      (ranges, freed + 1)
    else
      let (ranges, freed) := mergeFrom next rest
      (prange :: ranges, freed)

/-- Combine contiguous free regions. -/
def mergeranges : List Range → List Range × Nat
  | [] => ([], 0)
  | prange :: rest => mergeFrom prange rest

/-- Zero the data of a free range that is included in the image. -/
def zerofixup (data _fdata : List Byte) : List Byte := List.replicate data.length 0

/-- A fixup that calls a function. -/
def addfixupfunc (func : List Byte → List Byte → List Byte) (offset poffset size : Nat) (data : List Byte)
    (reloctype : Nat) (fixups : List Fixup) : List Fixup :=
  ⟨offset, poffset, size, reloctype, data, some func⟩ :: fixups

/-- Drop the ranges that are too small. Their data is zeroed if `zerofrange` is set. -/
def cullranges (frangesize : Int) (zerofrange : Bool) : List Range → List Fixup → List Range × List Fixup × Nat
  | [], fixups => ([], fixups, 0)
  | prange :: rest, fixups =>
    if prange.size < toUInt32 frangesize then
      let fixups := if zerofrange then
          addfixupfunc zerofixup (sectobytes prange.start) 0 (sectobytes prange.size) [] RELOC_NONE fixups
        else fixups
      let (ranges, fixups, culled) := cullranges frangesize zerofrange rest fixups
      (ranges, fixups, culled + 1)
    else
      let (ranges, fixups, culled) := cullranges frangesize zerofrange rest fixups
      (prange :: ranges, fixups, culled)

/-- Sort and merge the list of skip blocks, and winnow out the small ones. The
    number of entries that were freed is returned. -/
def mergeskips (frangesize : Int) (zerofrange : Bool) (skips : List Range) (fixups : List Fixup) :
    List Range × List Fixup × Nat :=
  let (skips, freed) := mergeranges (sortrange skips)
  if frangesize ≠ 0 then
    let (skips, fixups, culled) := cullranges frangesize zerofrange skips fixups
    (skips, fixups, freed + culled)
  else (skips, fixups, freed)

/-- The ranges between skips, and where the last skip ends. -/
def makerangesLoop (offset : Nat) (ranges : List Range) : List Range → Nat × List Range
  | [] => (offset, ranges)
  | pskip :: rest =>
    makerangesLoop (rangeEnd pskip)
      (if 0 < subU32 pskip.start offset then addvalid offset (subU32 pskip.start offset) ranges else ranges)
      rest

/-- Convert the free ranges to valid ones. If it is not known where the input
    ends, `inputmaxsec` is 0, and so is the size of the last range. -/
def makeranges (inputminsec inputmaxsec : Nat) (skips : List Range) : Except Failure (List Range) := do
  let (offset, ranges) := makerangesLoop (inputminsec % 2 ^ 32) [] skips
  -- last piece, but only if there is something to compress
  if inputmaxsec = 0 ∨ subU64 inputmaxsec offset ≠ 0 then
    assert (inputmaxsec = 0 ∨ offset < inputmaxsec)
    return addvalid offset (if inputmaxsec ≠ 0 then toUInt32 (subU64 inputmaxsec offset) else 0) ranges
  else
    return ranges

/-! ## Section 2: Merging -/

/-- No two ranges have a sector in common. -/
def DisjointRanges (l : List Range) : Prop := l.Pairwise fun e e' => e.stop ≤ e'.start ∨ e'.stop ≤ e.start

theorem ascending_sortrange {l : List Range} (hne : ∀ e ∈ l, 0 < e.size) (hdisj : DisjointRanges l) :
    Ascending (sortrange l) := by
  have hperm : (sortrange l).Perm l := BubbleSort.sort_perm _ l
  have hne' : ∀ e ∈ sortrange l, 0 < e.size := fun e he => hne e (hperm.mem_iff.mp he)
  have hsorted : (sortrange l).Pairwise fun r r' => r.start ≤ r'.start :=
    @BubbleSort.sort_sorted _ (fun r r' : Range => r.start ≤ r'.start) _ (fun _ _ => Nat.le_total _ _)
      (fun _ _ _ => Nat.le_trans) l
  have hdisj' : DisjointRanges (sortrange l) := (hperm.pairwise_iff fun h => h.symm).mpr hdisj
  refine ⟨hne', ?_⟩
  refine (hsorted.and hdisj').imp_of_mem fun {e e'} he he' h => ?_
  have h1 := hne' e he
  have h2 := hne' e' he'
  obtain ⟨hle, hor⟩ := h
  unfold stop at *
  omega

theorem covered_perm {l l' : List Range} (h : l.Perm l') (x : Nat) : Covered l x ↔ Covered l' x := by
  unfold Covered
  simp only [h.mem_iff]

/-- Neighbours become one range. -/
theorem mergeFrom_spec {prange : Range} {l : List Range} (h : Ascending (prange :: l))
    (hmax : ∀ e ∈ prange :: l, e.stop < 2 ^ 32) :
    Separated (mergeFrom prange l).1 ∧ (∀ x, Covered (mergeFrom prange l).1 x ↔ Covered (prange :: l) x) ∧
      ∀ e ∈ (mergeFrom prange l).1, prange.start ≤ e.start := by
  induction l generalizing prange with
  | nil =>
    refine ⟨⟨h.nonempty, pairwise_singleton _ _⟩, fun x => Iff.rfl, fun e he => ?_⟩
    rw [mem_singleton.mp he]
  | cons next rest ih =>
    obtain ⟨hsize, hbehind, hrest⟩ := ascending_cons.mp h
    obtain ⟨hnsize, hnbehind, hrest'⟩ := ascending_cons.mp hrest
    have hpstop := hmax prange mem_cons_self
    have hnstop := hmax next (mem_cons_of_mem _ mem_cons_self)
    have hle := hbehind next mem_cons_self
    unfold mergeFrom
    rw [rangeEnd_eq hpstop]
    by_cases heq : prange.stop = next.start
    · -- the two are contiguous, and what they make together is in front of the rest
      rw [if_pos heq]
      unfold stop at *
      rw [addU32_of_lt (by omega)]
      have hjoined : Ascending (⟨prange.start, prange.size + next.size⟩ :: rest) := by
        refine ascending_cons.mpr ⟨by show 0 < prange.size + next.size; omega, fun e he => ?_, hrest'⟩
        have := hnbehind e he
        unfold stop
        dsimp only
        omega
      obtain ⟨hsep, hcov, hfirst⟩ := ih hjoined (by
        intro e he
        rcases mem_cons.mp he with rfl | he
        · dsimp only
          omega
        · exact hmax e (mem_cons_of_mem _ (mem_cons_of_mem _ he)))
      refine ⟨hsep, fun x => (hcov x).trans ?_, hfirst⟩
      rw [covered_cons, covered_cons, covered_cons, ← or_assoc]
      refine or_congr ?_ Iff.rfl
      unfold Has stop
      dsimp only
      omega
    · rw [if_neg heq]
      obtain ⟨hsep, hcov, hfirst⟩ := ih hrest fun e he => hmax e (mem_cons_of_mem _ he)
      refine ⟨separated_cons.mpr ⟨hsize, fun e he => ?_, hsep⟩, fun x => ?_, fun e he => ?_⟩
      · have := hfirst e he
        omega
      · show Covered (prange :: (mergeFrom next rest).1) x ↔ _
        rw [covered_cons, hcov x]
        exact (covered_cons _ _ _).symm
      · rcases mem_cons.mp he with rfl | he
        · exact Nat.le_refl _
        · have := hfirst e he
          unfold stop at *
          omega

theorem mergeranges_spec {l : List Range} (h : Ascending l) (hmax : ∀ e ∈ l, e.stop < 2 ^ 32) :
    Separated (mergeranges l).1 ∧ ∀ x, Covered (mergeranges l).1 x ↔ Covered l x := by
  cases l with
  | nil => exact ⟨⟨h.nonempty, List.Pairwise.nil⟩, fun _ => Iff.rfl⟩
  | cons prange rest =>
    obtain ⟨hsep, hcov, -⟩ := mergeFrom_spec h hmax
    exact ⟨hsep, hcov⟩

theorem cullranges_eq (frangesize : Int) (zerofrange : Bool) (l : List Range) (fixups : List Fixup) :
    (cullranges frangesize zerofrange l fixups).1 = l.filter fun e => toUInt32 frangesize ≤ e.size := by
  induction l generalizing fixups with
  | nil => rfl
  | cons prange rest ih =>
    unfold cullranges
    split
    · rename_i hlt
      rw [filter_cons_of_neg (by simpa using hlt)]
      exact ih _
    · rename_i hge
      rw [filter_cons_of_pos (by simpa using hge)]
      exact congrArg (prange :: ·) (ih _)

/-- What is skipped are the long maximal runs of free sectors. -/
theorem mergeskips_spec {skips : List Range} (hne : ∀ e ∈ skips, 0 < e.size) (hdisj : DisjointRanges skips)
    (hmax : ∀ e ∈ skips, e.stop < 2 ^ 32) (frangesize : Int) (zerofrange : Bool) (fixups : List Fixup) :
    Ascending (mergeskips frangesize zerofrange skips fixups).1 ∧
      ∀ x, Covered (mergeskips frangesize zerofrange skips fixups).1 x ↔
        InRun (Covered skips) (toUInt32 frangesize) x := by
  have hperm : (sortrange skips).Perm skips := BubbleSort.sort_perm _ skips
  obtain ⟨hsep, hcov⟩ := mergeranges_spec (ascending_sortrange hne hdisj)
    fun e he => hmax e (hperm.mem_iff.mp he)
  have hsame : Covered (mergeranges (sortrange skips)).1 = Covered skips := by
    funext x
    rw [hcov x, covered_perm hperm x]
  have hfilter : (mergeskips frangesize zerofrange skips fixups).1 =
      (mergeranges (sortrange skips)).1.filter fun e => toUInt32 frangesize ≤ e.size := by
    unfold mergeskips
    dsimp only
    split
    · exact cullranges_eq _ _ _ _
    · rename_i hzero
      rw [not_not] at hzero
      rw [hzero, filter_eq_self.mpr]
      exact fun e _ => decide_eq_true (Nat.zero_le _)
  rw [hfilter]
  constructor
  · exact ⟨fun e he => hsep.nonempty e (mem_filter.mp he).1, hsep.ascending.ordered.filter _⟩
  · intro x
    rw [← hsep.inRun_iff, hsame]

/-! ## Section 3: The complement -/

/-- `new` covers what is from `offset` up to `stop` and not in `skips`. -/
structure BetweenSkips (skips : List Range) (offset stop : Nat) (new : List Range) : Prop where
  ascending : Ascending new
  above : ∀ e ∈ new, offset ≤ e.start
  below : ∀ e ∈ new, e.stop ≤ stop
  covered : ∀ x, Covered new x ↔ offset ≤ x ∧ x < stop ∧ ¬Covered skips x

/-- The gap in front of a skip. -/
theorem between_cons {pskip : Range} {rest new : List Range} {offset stop : Nat}
    (h : Ascending (pskip :: rest)) (hle : offset ≤ pskip.start) (hstop : pskip.stop ≤ stop)
    (hnew : BetweenSkips rest pskip.stop stop new) :
    BetweenSkips (pskip :: rest) offset stop
      ((if 0 < pskip.start - offset then [⟨offset, pskip.start - offset⟩] else []) ++ new) := by
  obtain ⟨hsize, hbehind, -⟩ := ascending_cons.mp h
  have hcov : ∀ x, Covered new x ↔ pskip.stop ≤ x ∧ x < stop ∧ ¬Covered (pskip :: rest) x := by
    intro x
    rw [hnew.covered, covered_cons, not_or]
    unfold Has
    constructor
    · intro h
      exact ⟨h.1, h.2.1, by omega, h.2.2⟩
    · intro h
      exact ⟨h.1, h.2.1, h.2.2.2⟩
  have hfree : ∀ x, x < pskip.start → ¬Covered (pskip :: rest) x := by
    intro x hx hc
    obtain ⟨e, he, hlo, -⟩ := hc
    rcases mem_cons.mp he with rfl | he
    · omega
    · have := hbehind e he
      unfold Extent.stop at this
      omega
  have hin : ∀ x, pskip.start ≤ x → x < pskip.stop → Covered (pskip :: rest) x :=
    fun x hlo hhi => ⟨pskip, mem_cons_self, hlo, hhi⟩
  have hpskip : pskip.start < pskip.stop := by
    unfold Extent.stop
    omega
  split
  · rename_i hgap
    have hstop' : Extent.stop ⟨offset, pskip.start - offset⟩ = pskip.start := by
      unfold Extent.stop
      dsimp only
      omega
    refine ⟨ascending_cons.mpr ⟨hgap, fun e he => ?_, hnew.ascending⟩, fun e he => ?_, fun e he => ?_,
      fun x => ?_⟩
    · have := hnew.above e he
      rw [hstop']
      omega
    · rcases mem_cons.mp he with rfl | he
      · exact Nat.le_refl _
      · have := hnew.above e he
        omega
    · rcases mem_cons.mp he with rfl | he
      · rw [hstop']
        omega
      · exact hnew.below e he
    · rw [singleton_append, covered_cons, hcov x]
      unfold Has
      rw [hstop']
      dsimp only
      constructor
      · rintro (hx | hx)
        · exact ⟨hx.1, by omega, hfree x hx.2⟩
        · exact ⟨by omega, hx.2⟩
      · intro hx
        rcases Nat.lt_or_ge x pskip.start with hlt | hge
        · exact Or.inl ⟨hx.1, hlt⟩
        · refine Or.inr ⟨?_, hx.2⟩
          by_contra hlt
          exact hx.2.2 (hin x hge (by omega))
  · rename_i hgap
    refine ⟨hnew.ascending, fun e he => ?_, hnew.below, fun x => ?_⟩
    · have := hnew.above e he
      omega
    · rw [nil_append, hcov x]
      constructor
      · exact fun hx => ⟨by omega, hx.2⟩
      · intro hx
        refine ⟨?_, hx.2⟩
        by_contra hlt
        exact hx.2.2 (hin x (by omega) (by omega))

/-- The loop adds the gaps, and ends behind the last skip. -/
theorem makerangesLoop_spec {skips : List Range} {offset : Nat} (ranges : List Range) (h : Ascending skips)
    (hlo : ∀ e ∈ skips, offset ≤ e.start) (hmax : ∀ e ∈ skips, e.stop < 2 ^ 32) (hoffset : offset < 2 ^ 32) :
    ∃ stop new, makerangesLoop offset ranges skips = (stop, ranges ++ new) ∧ BetweenSkips skips offset stop new ∧
      offset ≤ stop ∧ stop < 2 ^ 32 ∧ (∀ e ∈ skips, e.stop ≤ stop) ∧
      (stop = offset ∨ ∃ e ∈ skips, e.stop = stop) := by
  induction skips generalizing offset ranges with
  | nil =>
    refine ⟨offset, [], by rw [append_nil]; rfl, ?_, Nat.le_refl _, hoffset, by simp, Or.inl rfl⟩
    exact ⟨⟨by simp, List.Pairwise.nil⟩, by simp, by simp, fun x => by simp⟩
  | cons pskip rest ih =>
    obtain ⟨hsize, hbehind, hrest⟩ := ascending_cons.mp h
    have hle := hlo pskip mem_cons_self
    have hpstop := hmax pskip mem_cons_self
    have hpskip : pskip.start ≤ pskip.stop := Nat.le_add_right _ _
    obtain ⟨stop, new, hloop, hnew, hge, hlt, hall, hlast⟩ :=
      ih (if 0 < pskip.start - offset then addvalid offset (pskip.start - offset) ranges else ranges) hrest
        hbehind (fun e he => hmax e (mem_cons_of_mem _ he)) hpstop
    refine ⟨stop, _, ?_, between_cons h hle hge hnew, by omega, hlt, ?_, ?_⟩
    · unfold makerangesLoop
      rw [rangeEnd_eq hpstop, subU32_of_le hle (by omega), hloop, ← append_assoc]
      congr 2
      unfold addvalid
      split
      · rfl
      · rw [append_nil]
    · intro e he
      rcases mem_cons.mp he with rfl | he
      · exact hge
      · exact hall e he
    · rcases hlast with rfl | ⟨e, he, heq⟩
      · exact Or.inr ⟨pskip, mem_cons_self, rfl⟩
      · exact Or.inr ⟨e, mem_cons_of_mem _ he, heq⟩

/-- The list of ranges that is made of skips: what is left of the input, up to
    `inputmaxsec`, or, if that is 0, with a last range that has no end. -/
def Complement (skips : Nat → Prop) (inputminsec inputmaxsec : Nat) (ranges : List Range) : Prop :=
  if inputmaxsec = 0 then
    ∃ front last, ranges = front ++ [⟨last, 0⟩] ∧ Ascending front ∧ (∀ e ∈ front, e.stop ≤ last) ∧
      ∀ x, Covered front x ∨ last ≤ x ↔ inputminsec ≤ x ∧ ¬skips x
  else
    Ascending ranges ∧ ∀ x, Covered ranges x ↔ inputminsec ≤ x ∧ x < inputmaxsec ∧ ¬skips x

theorem makeranges_spec {skips : List Range} {inputminsec inputmaxsec : Nat} (h : Ascending skips)
    (hlo : ∀ e ∈ skips, inputminsec ≤ e.start) (hmax : ∀ e ∈ skips, e.stop < 2 ^ 32)
    (hhi : ∀ e ∈ skips, inputmaxsec = 0 ∨ e.stop ≤ inputmaxsec) (hmin : inputminsec < 2 ^ 32)
    (hend : inputmaxsec < 2 ^ 32) (hle : inputmaxsec = 0 ∨ inputminsec ≤ inputmaxsec) :
    ∃ ranges, makeranges inputminsec inputmaxsec skips = .ok ranges ∧
      Complement (Covered skips) inputminsec inputmaxsec ranges := by
  obtain ⟨stop, new, hloop, hnew, hge, hlt, hall, hlast⟩ := makerangesLoop_spec [] h hlo hmax hmin
  have hfree : ∀ x, stop ≤ x → ¬Covered skips x := by
    intro x hx hc
    obtain ⟨e, he, -, hlt⟩ := hc
    have := hall e he
    omega
  have hstop : inputmaxsec = 0 ∨ stop ≤ inputmaxsec := by
    rcases hlast with rfl | ⟨e, he, rfl⟩
    · exact hle
    · exact hhi e he
  unfold makeranges
  rw [Nat.mod_eq_of_lt hmin, hloop, nil_append]
  dsimp only
  by_cases hzero : inputmaxsec = 0
  · -- the last range has no end
    rw [if_pos (Or.inl hzero), if_neg (not_not.mpr hzero), decide_eq_true (Or.inl hzero)]
    refine ⟨_, rfl, ?_⟩
    unfold Complement
    rw [if_pos hzero]
    refine ⟨new, stop, rfl, hnew.ascending, hnew.below, fun x => ?_⟩
    rw [hnew.covered]
    constructor
    · rintro (hx | hx)
      · exact ⟨hx.1, hx.2.2⟩
      · exact ⟨by omega, hfree x hx⟩
    · intro hx
      rcases Nat.lt_or_ge x stop with hlt | hge
      · exact Or.inl ⟨hx.1, hlt, hx.2⟩
      · exact Or.inr hge
  · have hstop := hstop.resolve_left hzero
    have hsub : subU64 inputmaxsec stop = inputmaxsec - stop := subU64_of_le hstop (by omega)
    rw [hsub]
    by_cases hnone : inputmaxsec - stop = 0
    · -- the last skip ends where the input does
      obtain rfl : stop = inputmaxsec := by omega
      rw [if_neg (by simp [hzero])]
      refine ⟨_, rfl, ?_⟩
      unfold Complement
      rw [if_neg hzero]
      exact ⟨hnew.ascending, hnew.covered⟩
    · have hsize : toUInt32 (inputmaxsec - stop : Nat) = inputmaxsec - stop := by
        unfold toUInt32 toUnsigned
        omega
      rw [if_pos (Or.inr hnone), if_pos hzero, hsize, decide_eq_true (Or.inr (by omega))]
      refine ⟨_, rfl, ?_⟩
      unfold Complement
      rw [if_neg hzero]
      refine ⟨⟨fun e he => ?_, ?_⟩, fun x => ?_⟩
      · rcases mem_append.mp he with he | he
        · exact hnew.ascending.nonempty e he
        · rw [mem_singleton.mp he]
          show 0 < inputmaxsec - stop
          omega
      · refine pairwise_append.mpr ⟨hnew.ascending.ordered, pairwise_singleton _ _, fun e he e' he' => ?_⟩
        rw [mem_singleton.mp he']
        exact hnew.below e he
      · unfold addvalid
        rw [covered_append, hnew.covered, covered_cons]
        have hlastRange : Has ⟨stop, inputmaxsec - stop⟩ x ↔ stop ≤ x ∧ x < inputmaxsec := by
          unfold Has Extent.stop
          dsimp only
          omega
        rw [hlastRange]
        simp only [covered_nil, or_false]
        constructor
        · rintro (hx | hx)
          · exact ⟨hx.1, by omega, hx.2.2⟩
          · exact ⟨by omega, hx.2, hfree x hx.1⟩
        · intro hx
          rcases Nat.lt_or_ge x stop with hlt | hge
          · exact Or.inl ⟨hx.1, hlt, hx.2.2⟩
          · exact Or.inr ⟨hge, hx.2.1⟩

/-- Insert ranges of free space one after the other. -/
def addskips (inserted : List Range) : List Range :=
  inserted.foldl (fun skips r => addskip r.start r.size skips) []

theorem addskips_eq (inserted : List Range) : addskips inserted = inserted.reverse := by
  suffices h : ∀ skips, inserted.foldl (fun skips r => addskip r.start r.size skips) skips =
      inserted.reverse ++ skips by
    rw [addskips, h, append_nil]
  induction inserted with
  | nil => exact fun _ => rfl
  | cons r rest ih =>
    intro skips
    rw [foldl_cons, ih, reverse_cons, append_assoc]
    rfl

/-- The ranges of the image are what the input has besides the maximal runs of
    free sectors of the size of the threshold and above. -/
theorem makeranges_mergeskips (inserted : List Range) (inputminsec inputmaxsec : Nat) (frangesize : Int)
    (zerofrange : Bool) (fixups : List Fixup) (hne : ∀ e ∈ inserted, 0 < e.size)
    (hdisj : DisjointRanges inserted) (hlo : ∀ e ∈ inserted, inputminsec ≤ e.start)
    (hhi : ∀ e ∈ inserted, e.stop < 2 ^ 32 ∧ (inputmaxsec = 0 ∨ e.stop ≤ inputmaxsec))
    (hmin : inputminsec < 2 ^ 32) (hmax : inputmaxsec < 2 ^ 32)
    (hle : inputmaxsec = 0 ∨ inputminsec ≤ inputmaxsec) :
    ∃ ranges, makeranges inputminsec inputmaxsec
        (mergeskips frangesize zerofrange (addskips inserted) fixups).1 = .ok ranges ∧
      Complement (InRun (Covered inserted) (toUInt32 frangesize)) inputminsec inputmaxsec ranges := by
  have hperm : (addskips inserted).Perm inserted := by
    rw [addskips_eq]
    exact reverse_perm _
  obtain ⟨hasc, hcov⟩ := mergeskips_spec (fun e he => hne e (hperm.mem_iff.mp he))
    ((hperm.pairwise_iff fun h => h.symm).mpr hdisj) (fun e he => (hhi e (hperm.mem_iff.mp he)).1)
    frangesize zerofrange fixups
  have hsame : Covered (addskips inserted) = Covered inserted := funext fun x => propext (covered_perm hperm x)
  have hruns : Covered (mergeskips frangesize zerofrange (addskips inserted) fixups).1 =
      InRun (Covered inserted) (toUInt32 frangesize) := by
    funext x
    rw [hcov x, hsame]
  -- a sector that is skipped is in a range that was inserted
  have hin : ∀ e ∈ (mergeskips frangesize zerofrange (addskips inserted) fixups).1, ∀ x, e.Has x →
      ∃ e' ∈ inserted, e'.Has x := by
    intro e he x hx
    obtain ⟨lo, hi, hrun, h1, h2, -⟩ := (congrFun hruns x).mp ⟨e, he, hx⟩
    exact hrun.inside x h1 h2
  have hends : ∀ e ∈ (mergeskips frangesize zerofrange (addskips inserted) fixups).1,
      inputminsec ≤ e.start ∧ e.stop < 2 ^ 32 ∧ (inputmaxsec = 0 ∨ e.stop ≤ inputmaxsec) := by
    intro e he
    have hsize := hasc.nonempty e he
    obtain ⟨e₁, he₁, hfirst⟩ := hin e he e.start ⟨Nat.le_refl _, by unfold Extent.stop; omega⟩
    obtain ⟨e₂, he₂, hlast⟩ := hin e he (e.stop - 1) ⟨by unfold Extent.stop; omega, by unfold Extent.stop; omega⟩
    have h1 := hlo e₁ he₁
    obtain ⟨h2, h3⟩ := hhi e₂ he₂
    have h4 := hfirst.1
    have h5 := hlast.2
    exact ⟨by omega, by omega, h3.imp_right fun _ => by omega⟩
  rw [← hruns]
  exact makeranges_spec hasc (fun e he => (hends e he).1) (fun e he => (hends e he).2.1)
    (fun e he => (hends e he).2.2) hmin hmax hle

/-- Two ranges that touch, and one that is too small. -/
theorem makeranges_mergeskips_three : ∃ ranges, makeranges 63 1000
      (mergeskips 64 true (addskips [⟨300, 100⟩, ⟨150, 10⟩, ⟨250, 50⟩]) []).1 = .ok ranges ∧
    Complement (InRun (Covered [⟨300, 100⟩, ⟨150, 10⟩, ⟨250, 50⟩]) (toUInt32 64)) 63 1000 ranges :=
  makeranges_mergeskips [⟨300, 100⟩, ⟨150, 10⟩, ⟨250, 50⟩] 63 1000 64 true [] (by decide)
    (by unfold DisjointRanges; decide) (by decide) (by decide) (by decide) (by decide) (by decide)

example : makeranges 63 1000 (mergeskips 64 true (addskips [⟨300, 100⟩, ⟨150, 10⟩, ⟨250, 50⟩]) []).1 =
    .ok [⟨63, 187⟩, ⟨400, 600⟩] := by decide +kernel

end Emulab.Imagezip
