import Emulab.Imagezip.FixupBytes
import Emulab.Imagezip.HashmapDelta

/-! # The new signature

  While `hashmap_compute_delta` goes over the allocated ranges it makes the
  signature of the image. At sector `c` the regions of the new signature end
  there or before, and together with the ranges that are left they cover
  what is allocated. The hashes are those of the contents with the copied
  fixups applied, or a fixup has been missed that stays in the list to the
  end, where an assertion looks for it.
-/

namespace Emulab.Imagezip

open MachineInt Outcome Extent

variable {env : DeltaEnv} {S : List Fixup}

/-! ## Section 1: Regions of a signature -/

/-- The region is within a hash block; the blocks are counted from the start of the partition. -/
structure InBlock (env : DeltaEnv) (r : Range) : Prop where
  nonempty : 0 < r.size
  behind : env.poffset ≤ r.start
  /-- It does not go on across the end of the block. -/
  within : (r.start - env.poffset) % env.hashblksize + r.size ≤ env.hashblksize

theorem InBlock.size_le {r : Range} (h : InBlock env r) : r.size ≤ env.hashblksize :=
  Nat.le_trans (Nat.le_add_left _ _) h.within

/-- The bytes of a range with fixups applied to them. -/
def contents (env : DeltaEnv) (fixups : List Fixup) (r : Range) : List Byte :=
  fixedBytes (sectobytes r.start) fixups (readBytes env.disk (sectobytes r.start) (sectobytes r.size))

/-- The regions of the new signature. -/
def HashState.regions (st : HashState) : List HashRegion := st.nhinfo.getD []

/-- The regions of a signature that ends at sector `c` or before. -/
structure Shape (env : DeltaEnv) (c : Nat) (L : List HashRegion) : Prop where
  ascending : Ascending (L.map (·.region))
  before : ∀ r ∈ L, r.region.stop ≤ c
  inBlock : ∀ r ∈ L, InBlock env r.region
  fits : ∀ r ∈ L, r.region.stop < 2 ^ 32

theorem Shape.mono {c c' : Nat} {L : List HashRegion} (h : Shape env c L) (hle : c ≤ c') : Shape env c' L :=
  ⟨h.ascending, fun r hr => Nat.le_trans (h.before r hr) hle, h.inBlock, h.fits⟩

theorem Shape.append {c : Nat} {L : List HashRegion} (h : Shape env c L) {r : HashRegion}
    (hc : c ≤ r.region.start) (hr : InBlock env r.region) (hfits : r.region.stop < 2 ^ 32) :
    Shape env r.region.stop (L ++ [r]) := by
  constructor
  · constructor
    · intro e he
      rw [List.map_append, List.mem_append] at he
      rcases he with he | he
      · exact h.ascending.nonempty e he
      · obtain rfl : e = r.region := by simpa using he
        exact hr.nonempty
    · rw [List.map_append, List.pairwise_append]
      refine ⟨h.ascending.ordered, List.pairwise_singleton _ _, ?_⟩
      intro e he e' he'
      obtain ⟨r₀, hr₀, rfl⟩ := List.mem_map.mp he
      obtain rfl : e' = r.region := by simpa using he'
      exact Nat.le_trans (h.before r₀ hr₀) hc
  · intro r₀ hr₀
    rcases List.mem_append.mp hr₀ with hr₀ | hr₀
    · have := h.before r₀ hr₀
      unfold stop at *
      omega
    · rw [List.mem_singleton.mp hr₀]
  · intro r₀ hr₀
    rcases List.mem_append.mp hr₀ with hr₀ | hr₀
    · exact h.inBlock r₀ hr₀
    · rw [List.mem_singleton.mp hr₀]
      exact hr
  · intro r₀ hr₀
    rcases List.mem_append.mp hr₀ with hr₀ | hr₀
    · exact h.fits r₀ hr₀
    · rw [List.mem_singleton.mp hr₀]
      exact hfits

/-! ## Section 2: The fixups and the hashes -/

/-- What is left of the copied fixups at sector `c`, when none has been missed. -/
def Left (S : List Fixup) (c : Nat) (fixups : List Fixup) : Prop :=
  fixups = S.filterMap (Fixup.after (sectobytes c))

variable {fixups : List Fixup}

theorem Left.mono {c c' : Nat} (h : Left S c fixups) (hle : c ≤ c') :
    Late (sectobytes c') fixups ∨ Left S c' fixups := by
  by_cases hlate : Late (sectobytes c') fixups
  · exact Or.inl hlate
  · right
    have hbehind : ∀ fp ∈ fixups, sectobytes c' ≤ fp.offset := by
      intro fp hfp
      by_contra hlt
      exact hlate ⟨fp, hfp, by omega⟩
    unfold Left at *
    rw [← filterMap_after_after (sectobytes_le hle), ← h, filterMap_after_eq_self hbehind]

def Hashed (env : DeltaEnv) (S : List Fixup) (L : List HashRegion) : Prop :=
  ∀ r ∈ L, r.hash = env.hashfunc (contents env S r.region)

/-- The regions at sector `c` are right: their hashes, and that every byte that is modified is
    in one of them. -/
structure Right (env : DeltaEnv) (S : List Fixup) (c : Nat) (L : List HashRegion) : Prop where
  hashed : Hashed env S L
  met : ∀ p, p < sectobytes c → Modifies S p → Covered (L.map (·.region)) (bytestosec p)

/-- No fixup has been missed, and the regions are right. -/
structure Exact (env : DeltaEnv) (S : List Fixup) (c : Nat) (st : HashState) : Prop where
  left : Left S c st.fixups
  right : Right env S c st.regions

theorem Left.not_modifies {c c' p : Nat} (h : Left S c fixups)
    (h' : Left S c' fixups) (hlo : sectobytes c ≤ p) (hhi : p < sectobytes c') : ¬Modifies S p := by
  intro hm
  have hm := modifies_after hlo hm
  unfold Left at h h'
  rw [← h, h'] at hm
  obtain ⟨fp, hfp, hin⟩ := hm
  obtain ⟨fp₀, -, hafter⟩ := List.mem_filterMap.mp hfp
  have := Fixup.after_offset hafter
  omega

variable {st : HashState}

theorem Exact.mono {c c' : Nat} (h : Exact env S c st) (hle : c ≤ c') :
    Late (sectobytes c') st.fixups ∨ Exact env S c' st := by
  apply (h.left.mono hle).imp_right
  intro hleft
  refine ⟨hleft, h.right.hashed, ?_⟩
  intro p hp hm
  by_cases hlo : p < sectobytes c
  · exact h.right.met p hlo hm
  · exact absurd hm (h.left.not_modifies hleft (by omega) hp)

/-- The new signature at sector `c`. -/
structure SignsTo (env : DeltaEnv) (S : List Fixup) (c : Nat) (st : HashState) : Prop where
  shape : Shape env c st.regions
  exact : Late (sectobytes c) st.fixups ∨ Exact env S c st

theorem SignsTo.mono {c c' : Nat} (h : SignsTo env S c st) (hle : c ≤ c') : SignsTo env S c' st := by
  refine ⟨h.shape.mono hle, ?_⟩
  rcases h.exact with hlate | hexact
  · exact Or.inl (hlate.mono (sectobytes_le hle))
  · exact hexact.mono hle

/-- The copied fixups are sorted, and imagezip makes them. -/
structure Copied (S : List Fixup) : Prop where
  sorted : S.Pairwise fun fp fp' => fp.offset ≤ fp'.offset
  made : ∀ fp ∈ S, fp.IsMade

theorem Copied.after (h : Copied S) (c : Nat) : Copied (S.filterMap (Fixup.after c)) := by
  refine ⟨pairwise_after h.sorted, ?_⟩
  intro fp hfp
  obtain ⟨fp₀, hfp₀, hafter⟩ := List.mem_filterMap.mp hfp
  exact (h.made fp₀ hfp₀).after hafter

theorem contents_of_hasfixup (hS : Copied S) {start size : Nat} (hsize : 0 < size)
    (hfix : hasfixup (S.filterMap (Fixup.after (sectobytes start))) start size = false) :
    contents env S ⟨start, size⟩ = readBytes env.disk (sectobytes start) (sectobytes size) := by
  have hsorted : SortedFrom (sectobytes start) (S.filterMap (Fixup.after (sectobytes start))) :=
    (hS.after _).sorted.imp fun hle => Or.inr hle
  unfold contents
  rw [← fixedBytes_after (Nat.le_refl (sectobytes start)), fixedBytes_of_not_modifies]
  intro p hlo hhi
  rw [length_readBytes] at hhi
  exact not_modifies_of_hasfixup hsorted (Nat.le_refl _) hsize hfix p hlo hhi

/-- A range has been hashed: the hash is that of its contents, or a fixup has been missed. The
    new signature is as before. -/
structure HashedRange (env : DeltaEnv) (S : List Fixup) (start size : Nat) (st : HashState)
    (hash : List Byte) (st' : HashState) : Prop where
  same : st'.nhinfo = st.nhinfo
  right : Late (sectobytes (start + size)) st'.fixups ∨
    Left S (start + size) st'.fixups ∧ Right env S start st.regions ∧
      hash = env.hashfunc (contents env S ⟨start, size⟩)

variable {c start size : Nat}

/-- **One block.** Its hash is that of its contents, or a fixup has been missed. -/
theorem hashRange_signs (hS : Copied S) (h : SignsTo env S c st) (hc : c ≤ start) (hsize : 0 < size) :
    Yields True (hashRange env st start size) fun r => HashedRange env S start size st r.1 r.2 := by
  have hstart := h.mono hc
  have hle : sectobytes start ≤ sectobytes (start + size) := sectobytes_le (Nat.le_add_right _ _)
  unfold hashRange
  apply Yields.bind (yields_assert (Or.inl trivial))
  intro _ _
  split
  · trivial
  split
  · apply Yields.bind (yields_of_ok trivial fun r hr => hr)
    intro r happly
    obtain ⟨data, fixups, relocs⟩ := r
    refine ⟨rfl, ?_⟩
    rcases hstart.exact with hlate | hexact
    · exact Or.inl ((hlate.applyfixups (Nat.le_refl _) happly).mono hle)
    · -- the fixups of the block are the first that are left
      have hleft : st.fixups = S.filterMap (Fixup.after (sectobytes start)) := hexact.left
      rw [hleft] at happly
      have hcopied := hS.after (sectobytes start)
      rcases applyfixups_exact (length_readBytes _ _ _) hcopied.sorted hcopied.made happly with
        hlate | happlied
      · left
        rw [← sectobytes_add] at hlate
        exact hlate
      · right
        obtain ⟨rfl, rfl⟩ := happlied
        refine ⟨?_, hexact.right, ?_⟩
        · unfold Left
          rw [filterMap_after_after (Nat.le_add_right _ _), sectobytes_add]
        · unfold contents
          rw [fixedBytes_after (Nat.le_refl _)]
  · rename_i hfix
    refine ⟨rfl, ?_⟩
    rcases hstart.exact with hlate | hexact
    · exact Or.inl (hlate.mono hle)
    · have hleft : st.fixups = S.filterMap (Fixup.after (sectobytes start)) := hexact.left
      rcases hexact.left.mono (Nat.le_add_right start size) with hlate | hleft'
      · exact Or.inl hlate
      · right
        refine ⟨hleft', hexact.right, ?_⟩
        rw [hleft] at hfix
        rw [contents_of_hasfixup hS hsize (by simpa using hfix)]

/-- Appending a region, when its hash has been computed. -/
theorem addhash_signs {st st' : HashState} {hash : List Byte}
    (h : SignsTo env S c st) (hc : c ≤ start) (hr : InBlock env ⟨start, size⟩)
    (hfits : start + size < 2 ^ 32) (hst' : HashedRange env S start size st hash st') :
    SignsTo env S (start + size) (addhash st' start size hash) := by
  have hregions : (addhash st' start size hash).regions = st.regions ++ [⟨⟨start, size⟩, 0, hash⟩] := by
    unfold HashState.regions addhash
    rw [hst'.same]
    rfl
  constructor
  · rw [hregions]
    exact h.shape.append (r := ⟨⟨start, size⟩, 0, hash⟩) hc hr hfits
  · refine hst'.right.imp_right fun hright => ⟨hright.1, ?_⟩
    obtain ⟨-, hold, hhash⟩ := hright
    rw [hregions]
    constructor
    · intro r hr
      rcases List.mem_append.mp hr with hr | hr
      · exact hold.hashed r hr
      · rw [List.mem_singleton.mp hr]
        exact hhash
    · intro p hp hm
      rw [List.map_append, covered_append]
      by_cases hlo : p < sectobytes start
      · exact Or.inl (hold.met p hlo hm)
      · right
        -- the byte is in the block that has just been hashed
        simp only [List.map_cons, List.map_nil, covered_cons, covered_nil, or_false]
        unfold Extent.Has stop bytestosec sectobytes SECSIZE at *
        simp only
        omega

/-- The sectors that the new signature covers. -/
def HashState.Has (st : HashState) (x : Nat) : Prop := Covered (st.regions.map (·.region)) x

theorem addhash_has (st : HashState) (start size : Nat) (hash : List Byte) (x : Nat) :
    (addhash st start size hash).Has x ↔ st.Has x ∨ Extent.Has ⟨start, size⟩ x := by
  unfold HashState.Has HashState.regions addhash
  simp

/-! ## Section 3: Ranges -/

/-- What is left of a number up to a multiple of `b` ends there. -/
theorem add_sub_mod_mod {b : Nat} (hb : 0 < b) (k : Nat) : (k + (b - k % b)) % b = 0 := by
  have hlt := Nat.mod_lt k hb
  have hdiv := Nat.div_add_mod k b
  have hsum : k + (b - k % b) = b * (k / b + 1) := by
    rw [Nat.mul_add, Nat.mul_one]
    omega
  rw [hsum, Nat.mul_mod_right]

theorem addToHashmapLoop_signs (hS : Copied S) {c offset rstart rsize : Nat}
    (h : SignsTo env S c st) (hc : c ≤ rstart) (hpart : env.poffset ≤ rstart)
    (hfits : rstart + rsize < 2 ^ 32) (hb : 0 < env.hashblksize)
    (hoffset : 0 < rsize → offset = (rstart - env.poffset) % env.hashblksize) :
    Yields True (addToHashmapLoop env offset rstart rsize none st) fun st' =>
      SignsTo env S (rstart + rsize) st' ∧ ∀ x, st.Has x ∨ Extent.Has ⟨rstart, rsize⟩ x → st'.Has x := by
  induction rsize using Nat.strong_induction_on generalizing c offset rstart st with
  | _ rsize ih =>
    unfold addToHashmapLoop
    split
    · rename_i hzero
      refine ⟨h.mono (by omega), ?_⟩
      intro x hx
      unfold Extent.Has stop at hx
      simp only [hzero] at hx
      exact hx.resolve_right (by omega)
    rename_i hrsize
    have hmod := Nat.mod_lt (rstart - env.poffset) hb
    have hoff := hoffset (by omega)
    have hhsize : (if offset ≠ 0 then min (env.hashblksize - offset) rsize
        else if env.hashblksize < rsize then env.hashblksize else rsize) =
        min (env.hashblksize - offset) rsize := by
      split_ifs <;> omega
    dsimp only
    rw [hhsize]
    generalize hmin : min (env.hashblksize - offset) rsize = hsize
    split
    · trivial
    have hblock : InBlock env ⟨rstart, hsize⟩ := ⟨by simp only; omega, hpart, by simp only; omega⟩
    apply Yields.bind (hashRange_signs hS h hc hblock.nonempty)
    intro r hr
    obtain ⟨hash, st₁⟩ := r
    have hstep := addhash_signs h hc hblock (by omega) hr
    have hnhinfo : st₁.nhinfo = st.nhinfo := hr.same
    have hold : ∀ x, st₁.Has x ↔ st.Has x := by
      intro x
      unfold HashState.Has HashState.regions
      rw [hnhinfo]
    have hadd : addU32 rstart hsize = rstart + hsize := addU32_of_lt (by omega)
    have hrest : rstart + hsize + (rsize - hsize) = rstart + rsize := by omega
    -- what is left begins with a block
    have hnext : 0 < rsize - hsize → 0 = (rstart + hsize - env.poffset) % env.hashblksize := by
      intro hpos
      have hend : rstart + hsize - env.poffset =
          rstart - env.poffset + (env.hashblksize - (rstart - env.poffset) % env.hashblksize) := by
        omega
      rw [hend, add_sub_mod_mod hb]
    rw [hadd]
    apply (ih (rsize - hsize) (by omega) hstep (Nat.le_refl _) (by omega) (by omega) hnext).imp
    intro st' hst'
    rw [hrest] at hst'
    refine ⟨hst'.1, ?_⟩
    intro x hx
    apply hst'.2 x
    rw [addhash_has, hold]
    unfold Extent.Has stop at hx ⊢
    simp only at hx ⊢
    rcases hx with hx | hx
    · exact Or.inl (Or.inl hx)
    · by_cases hin : x < rstart + hsize
      · exact Or.inl (Or.inr ⟨hx.1, hin⟩)
      · exact Or.inr ⟨by omega, by omega⟩

theorem hashNew_signs (hS : Copied S) (h : SignsTo env S c st) (hnew : env.newhashfile = true) (hc : c ≤ start)
    (hpart : env.poffset ≤ start) (hfits : start + size < 2 ^ 32) :
    Yields True (hashNew env st start size none) fun st' =>
      SignsTo env S (start + size) st' ∧ ∀ x, st.Has x ∨ Extent.Has ⟨start, size⟩ x → st'.Has x := by
  unfold hashNew
  rw [if_pos hnew]
  unfold addToHashmap
  split
  · trivial
  · apply addToHashmapLoop_signs hS h hc hpart hfits (by omega)
    intro _
    rw [subU32_of_le hpart (by omega)]

/-- A region within a block gets one entry. -/
theorem hashNew_inBlock {start size : Nat} (hnew : env.newhashfile = true)
    (hr : InBlock env ⟨start, size⟩) (hfits : start < 2 ^ 32) (st : HashState) (hash : List Byte) :
    hashNew env st start size (some hash) = .ok (addhash st start size hash) := by
  have hb : 0 < env.hashblksize := Nat.lt_of_lt_of_le hr.nonempty hr.size_le
  have hsize : 0 < size := hr.nonempty
  have hwithin : (start - env.poffset) % env.hashblksize + size ≤ env.hashblksize := hr.within
  have hhsize : (if (start - env.poffset) % env.hashblksize ≠ 0 then
      min (env.hashblksize - (start - env.poffset) % env.hashblksize) size
      else if env.hashblksize < size then env.hashblksize else size) = size := by
    split_ifs <;> omega
  unfold hashNew
  rw [if_pos hnew]
  unfold addToHashmap
  rw [if_neg (by omega), subU32_of_le hr.behind hfits]
  unfold addToHashmapLoop
  rw [if_neg (by omega)]
  dsimp only
  rw [hhsize, dif_neg (by omega), Nat.sub_self]
  -- nothing is left for the loop
  have hdone : ∀ st', addToHashmapLoop env 0 (addU32 start size) 0 (some hash) st' = .ok st' := by
    intro st'
    unfold addToHashmapLoop
    rw [if_pos rfl]
  exact hdone _

variable {out : RangeTail}

theorem keepRange_signs (hS : Copied S) (h : SignsTo env S c st) (hnew : env.newhashfile = true) (hc : c ≤ start)
    (hpart : env.poffset ≤ start) (hfits : start + size < 2 ^ 32) :
    Yields True (keepRange env out st start size) fun r =>
      SignsTo env S (start + size) r.2 ∧ ∀ x, st.Has x ∨ Extent.Has ⟨start, size⟩ x → r.2.Has x := by
  unfold keepRange
  apply Yields.bind (hashNew_signs hS h hnew hc hpart hfits)
  intro st' hst'
  exact hst'

/-- What is left of the allocated ranges at sector `c`, in the partition. -/
structure AheadIn (env : DeltaEnv) (c : Nat) (ds : List Range) : Prop where
  ahead : Ahead env True [] c ds
  inPart : ∀ d ∈ ds, env.poffset ≤ d.start

variable {ds : List Range}

theorem AheadIn.tail {c : Nat} {d : Range} (h : AheadIn env c (d :: ds)) : AheadIn env d.stop ds :=
  ⟨h.ahead.tail, fun e he => h.inPart e (List.mem_cons_of_mem _ he)⟩

theorem AheadIn.cut {c k : Nat} {d : Range} (h : AheadIn env c (d :: ds))
    (hhi : k < d.stop) (hk : d.start ≤ k) : AheadIn env k (⟨k, d.stop - k⟩ :: ds) := by
  refine ⟨h.ahead.cut hhi, ?_⟩
  intro e he
  rcases List.mem_cons.mp he with rfl | he
  · exact Nat.le_trans (h.inPart d List.mem_cons_self) hk
  · exact h.inPart e (List.mem_cons_of_mem _ he)

/-- Where the first range begins, the others do too or behind. -/
theorem AheadIn.of_head {c k : Nat} (h : AheadIn env c ds)
    (hhead : ∀ d ∈ ds.head?, k ≤ d.start) : AheadIn env k ds := by
  refine ⟨⟨h.ahead.ascending, ?_, h.ahead.fits, h.ahead.canHash⟩, h.inPart⟩
  cases ds with
  | nil => simp
  | cons d ds =>
    have hd := hhead d rfl
    obtain ⟨-, hfirst, -⟩ := ascending_cons.mp h.ahead.ascending
    intro e he
    rcases List.mem_cons.mp he with rfl | he
    · exact hd
    · have := hfirst e he
      have : d.start ≤ d.stop := Nat.le_add_right _ _
      omega

/-- The sector is in the new signature, or in a range that is left. -/
def Covers (st : HashState) (ds : List Range) (x : Nat) : Prop := st.Has x ∨ Covered ds x

/-- The state at sector `c`, when the ranges `ds` are left. -/
structure SignScan (env : DeltaEnv) (S : List Fixup) (c : Nat) (ds : List Range)
    (st : HashState) : Prop where
  signs : SignsTo env S c st
  ahead : AheadIn env c ds

theorem keepFirst_signs (hS : Copied S) (hnew : env.newhashfile = true) {c : Nat} {d : Range}
    {next : List Range} (h : SignScan env S c (d :: next) st) :
    Yields True (keepRange env out st d.start d.size) fun r =>
      SignScan env S d.stop next r.2 ∧ ∀ x, Covers st (d :: next) x → Covers r.2 next x := by
  have hd : d ∈ d :: next := List.mem_cons_self
  apply (keepRange_signs hS h.signs hnew (h.ahead.ahead.behind d hd) (h.ahead.inPart d hd)
    (h.ahead.ahead.fits d hd)).imp
  intro r hr
  refine ⟨⟨hr.1, h.ahead.tail⟩, ?_⟩
  intro x hx
  unfold Covers at *
  rw [covered_cons, ← or_assoc] at hx
  exact hx.imp_left (hr.2 x)

/-! ## Section 4: One region -/

theorem keepBefore_signs (hS : Copied S) (hnew : env.newhashfile = true) {hstart c : Nat}
    (h : SignScan env S c ds st) (hc : c ≤ hstart) :
    Yields True (keepBefore env hstart ds out st) fun s =>
      (∃ c', c' ≤ hstart ∧ SignScan env S c' s.dranges s.st) ∧ ∀ x, Covers st ds x → Covers s.st s.dranges x := by
  induction ds generalizing c out st with
  | nil =>
    unfold keepBefore
    exact ⟨⟨c, hc, h⟩, fun x hx => hx⟩
  | cons d next ih =>
    unfold keepBefore
    rw [rangeEnd_eq (h.ahead.ahead.fits d List.mem_cons_self)]
    split
    · rename_i hbefore
      apply Yields.bind (keepFirst_signs hS hnew h)
      intro r hr
      apply Yields.bind (yields_assert (Or.inl trivial))
      intro _ _
      apply (ih hr.1 hbefore).imp
      intro s hs
      exact ⟨hs.1, fun x hx => hs.2 x (hr.2 x hx)⟩
    · exact ⟨⟨c, hc, h⟩, fun x hx => hx⟩

theorem keepHead_signs (hS : Copied S) (hnew : env.newhashfile = true) {hstart c : Nat}
    {d : Range} {next : List Range}
    (h : SignScan env S c (d :: next) st) (hc : c ≤ hstart) (hd : hstart < d.stop) :
    Yields True (keepHead env hstart d out st) fun r =>
      hstart ≤ r.1.start ∧ (∃ c', c' ≤ hstart ∧ SignScan env S c' (r.1 :: next) r.2.2) ∧
        ∀ x, Covers st (d :: next) x → Covers r.2.2 (r.1 :: next) x := by
  have hmem : d ∈ d :: next := List.mem_cons_self
  have hfits := h.ahead.ahead.fits d hmem
  unfold keepHead
  split
  · rename_i hlt
    have hsub : subU32 hstart d.start = hstart - d.start := subU32_of_le (Nat.le_of_lt hlt) (by omega)
    have hadd : d.start + (hstart - d.start) = hstart := by omega
    have hsize : subU32 d.size (hstart - d.start) = d.stop - hstart := by
      unfold stop at hd hfits ⊢
      rw [subU32_of_le (by omega) (by omega)]
      omega
    rw [hsub]
    dsimp only
    rw [addU32_of_lt (a := d.start) (by omega), hadd, hsize]
    apply Yields.bind (keepRange_signs hS h.signs hnew (h.ahead.ahead.behind d hmem)
      (h.ahead.inPart d hmem) (by omega))
    intro r hr
    rw [hadd] at hr
    refine ⟨Nat.le_refl _, ⟨hstart, Nat.le_refl _, hr.1, h.ahead.cut hd (by omega)⟩, ?_⟩
    intro x hx
    have hstep := hr.2 x
    unfold Covers Extent.Has stop at *
    rw [covered_cons] at hx ⊢
    unfold Extent.Has stop at *
    simp only at hstep ⊢
    rcases hx with hx | hx | hx
    · exact Or.inl (hstep (Or.inl hx))
    · by_cases hin : x < hstart
      · exact Or.inl (hstep (Or.inr ⟨hx.1, by omega⟩))
      · exact Or.inr (Or.inl ⟨by omega, by omega⟩)
    · exact Or.inr (Or.inr hx)
  · rename_i hge
    exact ⟨Nat.le_of_not_lt hge, ⟨c, hc, h⟩, fun x hx => hx⟩

/-- The contents of the region have been compared, and its hash is in the new signature. -/
def Changed.compared : Changed → Bool
  | .same | .differs => true
  | .gap | .fixup => false

/-- The new signature while the parts of ranges that a region covers are gone through: all of
    the region has been added to it before, or the parts are added one by one. -/
def InRegion (env : DeltaEnv) (S : List Fixup) (changed : Changed) (hstart hend c : Nat) (st : HashState) : Prop :=
  if changed.compared then SignsTo env S hend st ∧ ∀ x, hstart ≤ x → x < hend → st.Has x
  else SignsTo env S c st

theorem InRegion.mono {changed : Changed} {hstart hend c c' : Nat}
    (h : InRegion env S changed hstart hend c st) (hle : c ≤ c') : InRegion env S changed hstart hend c' st := by
  unfold InRegion at *
  split
  · rename_i hcompared
    rwa [if_pos hcompared] at h
  · rename_i hcompared
    rw [if_neg hcompared] at h
    exact h.mono hle

theorem compareRegion_signs (hS : Copied S) (hnew : env.newhashfile = true) {c : Nat} {d : Range}
    {hreg : HashRegion} (h : SignsTo env S c st) (hc : c ≤ hreg.region.start)
    (hr : InBlock env hreg.region) (hfits : hreg.region.stop < 2 ^ 32) :
    Yields True (compareRegion env d hreg st) fun r =>
      InRegion env S r.1 hreg.region.start hreg.region.stop c r.2 ∧ ∀ x, st.Has x → r.2.Has x := by
  unfold compareRegion
  split
  · split
    · exact ⟨h, fun x hx => hx⟩
    · unfold hashAndCmp
      apply Yields.bind
      · apply Yields.bind (hashRange_signs hS h hc hr.nonempty)
        intro r hr
        exact (yields_ok (Q := fun r : Bool × List Byte × HashState =>
          HashedRange env S hreg.region.start hreg.region.size st r.2.1 r.2.2)).mpr hr
      intro r hhash
      obtain ⟨differs, hash, st₁⟩ := r
      have hlt : hreg.region.start < 2 ^ 32 := by
        unfold stop at hfits
        omega
      have hnew₁ := hashNew_inBlock hnew hr hlt st₁ hash
      have hsigns := addhash_signs h hc hr hfits hhash
      have hold : ∀ x, st₁.Has x ↔ st.Has x := by
        intro x
        unfold HashState.Has HashState.regions
        rw [hhash.same]
      simp only
      rw [hnew₁]
      have hregion : InRegion env S .same hreg.region.start hreg.region.stop c
          (addhash st₁ hreg.region.start hreg.region.size hash) := by
        refine ⟨hsigns, ?_⟩
        intro x hlo hhi
        rw [addhash_has]
        exact Or.inr ⟨hlo, hhi⟩
      have hhas : ∀ x, st.Has x → (addhash st₁ hreg.region.start hreg.region.size hash).Has x := by
        intro x hx
        rw [addhash_has, hold]
        exact Or.inl hx
      cases differs with
      | true => exact ⟨hregion, hhas⟩
      | false => exact ⟨hregion, hhas⟩
  · exact ⟨h, fun x hx => hx⟩

theorem keepPart_signs (hS : Copied S) (hnew : env.newhashfile = true) {changed : Changed}
    {hstart hend c start size : Nat}
    (h : InRegion env S changed hstart hend c st) (hc : c ≤ start) (hpart : env.poffset ≤ start)
    (hlo : hstart ≤ start) (hhi : start + size ≤ hend) (hfits : start + size < 2 ^ 32) :
    Yields True (keepPart env changed out st start size) fun r =>
      InRegion env S changed hstart hend (start + size) r.2 ∧
        ∀ x, st.Has x ∨ Extent.Has ⟨start, size⟩ x → r.2.Has x := by
  have hcompared : changed.compared = true → InRegion env S changed hstart hend (start + size) st ∧
        ∀ x, st.Has x ∨ Extent.Has ⟨start, size⟩ x → st.Has x := by
    intro hcompared
    refine ⟨h.mono (by omega), ?_⟩
    unfold InRegion at h
    rw [if_pos hcompared] at h
    intro x hx
    rcases hx with hx | hx
    · exact hx
    · unfold Extent.Has stop at hx
      simp only at hx
      exact h.2 x (by omega) (by omega)
  cases changed with
  | same => exact hcompared rfl
  | differs => exact hcompared rfl
  | gap => exact keepRange_signs hS h hnew hc hpart hfits
  | fixup => exact keepRange_signs hS h hnew hc hpart hfits

theorem keepCovered_signs (hS : Copied S) (hnew : env.newhashfile = true) {changed : Changed} {hstart hend c : Nat}
    (h : InRegion env S changed hstart hend c st) (ha : AheadIn env c ds) (hc : c ≤ hend)
    (hend32 : hend < 2 ^ 32) :
    Yields True (keepCovered env changed hstart hend ds out st) fun s =>
      InRegion env S changed hstart hend hend s.st ∧ (∃ c', AheadIn env c' s.dranges) ∧
        ∀ x, Covers st ds x → Covers s.st s.dranges x := by
  induction ds generalizing c out st with
  | nil =>
    unfold keepCovered
    exact ⟨h.mono hc, ⟨c, ha⟩, fun x hx => hx⟩
  | cons d next ih =>
    have hmem : d ∈ d :: next := List.mem_cons_self
    have hfits := ha.ahead.fits d hmem
    have hbehind := ha.ahead.behind d hmem
    unfold keepCovered
    rw [rangeEnd_eq hfits]
    split
    swap
    · exact ⟨h.mono hc, ⟨c, ha⟩, fun x hx => hx⟩
    rename_i hlt
    dsimp only
    apply Yields.bind (yields_assert (Or.inl trivial))
    intro _ hlo
    have hlo : hstart ≤ d.start := by simpa using hlo
    by_cases hcross : hend < d.stop
    · -- the range crosses the end of the region and is split
      simp only [hcross, decide_true, if_true]
      have hcur : d.start + subU32 hend d.start = hend := by
        rw [subU32_of_le (Nat.le_of_lt hlt) hend32]
        omega
      rw [subU32_of_le (Nat.le_of_lt hcross) hfits]
      apply Yields.bind (yields_assert (Or.inl trivial))
      intro _ _
      apply Yields.bind (keepPart_signs hS hnew h hbehind (ha.inPart d hmem) hlo (by omega) (by omega))
      intro r hr
      rw [hcur] at hr
      unfold keepCovered
      simp only [Nat.lt_irrefl, if_false]
      refine ⟨hr.1, ⟨hend, ha.cut hcross (Nat.le_of_lt hlt)⟩, ?_⟩
      intro x hx
      have hstep := hr.2 x
      unfold Covers at *
      rw [covered_cons] at hx ⊢
      unfold Extent.Has stop at *
      simp only at hstep ⊢
      rcases hx with hx | hx | hx
      · exact Or.inl (hstep (Or.inl hx))
      · by_cases hin : x < hend
        · exact Or.inl (hstep (Or.inr ⟨hx.1, by omega⟩))
        · exact Or.inr (Or.inl ⟨by omega, by omega⟩)
      · exact Or.inr (Or.inr hx)
    · simp only [hcross, decide_false, Bool.false_eq_true, if_false]
      have hle : d.start ≤ d.stop := Nat.le_add_right _ _
      have hcur : d.start + subU32 d.stop d.start = d.stop := by
        rw [subU32_of_le hle hfits]
        exact Nat.add_sub_cancel' hle
      apply Yields.bind (yields_assert (Or.inl trivial))
      intro _ _
      apply Yields.bind (keepPart_signs hS hnew h hbehind (ha.inPart d hmem) hlo (by omega) (by omega))
      intro r hr
      rw [hcur] at hr
      apply Yields.bind (yields_assert (Or.inl trivial))
      intro _ _
      apply (ih hr.1 ha.tail (by omega)).imp
      intro s hs
      refine ⟨hs.1, hs.2.1, ?_⟩
      intro x hx
      apply hs.2.2 x
      have hstep := hr.2 x
      unfold Covers at *
      rw [covered_cons] at hx
      unfold Extent.Has at hx hstep
      unfold stop at hstep hcur hx
      simp only [hcur] at hstep
      rcases hx with hx | hx | hx
      · exact Or.inl (hstep (Or.inl hx))
      · exact Or.inl (hstep (Or.inr hx))
      · exact Or.inr hx

/-- **One region.** The scan goes on where the region ends, or before. -/
theorem deltaRegion_signs (hS : Copied S) (hnew : env.newhashfile = true) {c : Nat}
    {hreg : HashRegion} {s : DeltaState} (h : SignScan env S c s.dranges s.st)
    (hc : c ≤ hreg.region.start) (hr : InBlock env hreg.region) (hfits : hreg.region.stop < 2 ^ 32) :
    Yields True (deltaRegion env hreg s) fun s' =>
      (∃ c', c' ≤ hreg.region.stop ∧ SignScan env S c' s'.dranges s'.st) ∧
        ∀ x, Covers s.st s.dranges x → Covers s'.st s'.dranges x := by
  have hle : hreg.region.start ≤ hreg.region.stop := Nat.le_add_right _ _
  unfold deltaRegion
  rw [rangeEnd_eq hfits]
  dsimp only
  apply Yields.bind (keepBefore_signs hS hnew h hc)
  intro s₁ hs₁
  obtain ⟨⟨c₁, hc₁, hscan₁⟩, hcovers₁⟩ := hs₁
  have hdone : (∃ c', c' ≤ hreg.region.stop ∧ SignScan env S c' s₁.dranges s₁.st) ∧
      ∀ x, Covers s.st s.dranges x → Covers s₁.st s₁.dranges x :=
    ⟨⟨c₁, Nat.le_trans hc₁ hle, hscan₁⟩, hcovers₁⟩
  cases hds : s₁.dranges with
  | nil => exact hdone
  | cons d next =>
    rw [hds] at hscan₁ hcovers₁
    dsimp only
    rw [rangeEnd_eq (hscan₁.ahead.ahead.fits d List.mem_cons_self)]
    apply Yields.bind (yields_assert (Or.inl trivial))
    intro _ hd
    have hd : hreg.region.start < d.stop := by simpa using hd
    split
    · exact hdone
    apply Yields.bind (yields_assert (Or.inl trivial))
    intro _ _
    apply Yields.bind (keepHead_signs hS hnew hscan₁ hc₁ hd)
    intro r₂ hr₂
    obtain ⟨d₂, out₂, st₂⟩ := r₂
    obtain ⟨-, ⟨c₂, hc₂, hscan₂⟩, hcovers₂⟩ := hr₂
    apply Yields.bind (compareRegion_signs hS hnew hscan₂.signs hc₂ hr hfits)
    intro r₃ hr₃
    obtain ⟨changed, st₃⟩ := r₃
    obtain ⟨hregion, hhas⟩ := hr₃
    apply Yields.bind (yields_assert (Or.inl trivial))
    intro _ _
    apply Yields.bind (keepCovered_signs hS hnew hregion hscan₂.ahead (by omega) hfits)
    intro s₄ hs₄
    obtain ⟨hregion₄, ⟨c₄, hahead₄⟩, hcovers₄⟩ := hs₄
    apply Yields.bind (yields_assert (Or.inl trivial))
    intro _ hhead
    have hhead : ∀ d ∈ s₄.dranges.head?, hreg.region.stop ≤ d.start := by
      simpa [Option.all_eq_true] using hhead
    -- added as a whole or part by part, the region is behind
    have hsigns : SignsTo env S hreg.region.stop s₄.st := by
      unfold InRegion at hregion₄
      split at hregion₄
      · exact hregion₄.1
      · exact hregion₄
    refine ⟨⟨hreg.region.stop, Nat.le_refl _, hsigns, hahead₄.of_head hhead⟩, ?_⟩
    intro x hx
    apply hcovers₄ x
    exact (hcovers₂ x (hcovers₁ x hx)).imp_left (hhas x)

/-! ## Section 5: The whole scan -/

theorem deltaLoop_signs (hS : Copied S) (hnew : env.newhashfile = true) {c : Nat}
    {hregs : List HashRegion} {s : DeltaState} (h : SignScan env S c s.dranges s.st)
    (hregions : Ascending (hregs.map (·.region))) (hc : ∀ hreg ∈ hregs, c ≤ hreg.region.start)
    (hblocks : ∀ hreg ∈ hregs, InBlock env hreg.region) (hfits : ∀ hreg ∈ hregs, hreg.region.stop < 2 ^ 32) :
    Yields True (deltaLoop env hregs s) fun r =>
      (∃ c', SignScan env S c' r.1.dranges r.1.st) ∧
        ∀ x, Covers s.st s.dranges x → Covers r.1.st r.1.dranges x := by
  induction hregs generalizing c s with
  | nil =>
    unfold deltaLoop
    exact ⟨⟨c, h⟩, fun x hx => hx⟩
  | cons hreg hregs ih =>
    obtain ⟨-, hfirst, hrest⟩ := ascending_cons.mp hregions
    have hmem : hreg ∈ hreg :: hregs := List.mem_cons_self
    unfold deltaLoop
    apply Yields.bind (yields_assert (Or.inl trivial))
    intro _ _
    apply Yields.bind (deltaRegion_signs hS hnew h (hc hreg hmem) (hblocks hreg hmem) (hfits hreg hmem))
    intro s₁ hs₁
    obtain ⟨⟨c₁, hc₁, hscan₁⟩, hcovers₁⟩ := hs₁
    split
    · exact ⟨⟨c₁, hscan₁⟩, hcovers₁⟩
    · have hloop := ih hscan₁ hrest (fun hreg' hmem' => Nat.le_trans hc₁ (hfirst _ (List.mem_map_of_mem hmem')))
        (fun hreg' hmem' => hblocks hreg' (List.mem_cons_of_mem _ hmem'))
        (fun hreg' hmem' => hfits hreg' (List.mem_cons_of_mem _ hmem'))
      apply hloop.imp
      intro r hr
      exact ⟨hr.1, fun x hx => hr.2 x (hcovers₁ x hx)⟩

theorem keepRest_signs (hS : Copied S) (hnew : env.newhashfile = true) {c : Nat} {hregs : List HashRegion}
    (h : SignScan env S c ds st) :
    Yields True (keepRest env hregs ds out st) fun r =>
      (∃ c', SignsTo env S c' r.2) ∧ ∀ x, Covers st ds x → r.2.Has x := by
  induction ds generalizing c out st with
  | nil =>
    unfold keepRest
    refine ⟨⟨c, h.signs⟩, ?_⟩
    intro x hx
    exact hx.resolve_right (covered_nil x)
  | cons d next ih =>
    unfold keepRest
    apply Yields.bind (yields_assert (Or.inl trivial))
    intro _ _
    apply Yields.bind (keepFirst_signs hS hnew h)
    intro r hr
    apply Yields.bind (yields_assert (Or.inl trivial))
    intro _ _
    apply (ih hr.1).imp
    intro r' hr'
    exact ⟨hr'.1, fun x hx => hr'.2 x (hr.2 x hx)⟩

/-! ## Section 6: The signature -/

/-- What a caller gives for a new signature, beside sorted lists: everything is in the
    partition, no region of the input signature goes on across the end of a hash block, and
    the fixups are of the kinds that imagezip makes. -/
structure SignArgs (input : DeltaInput) (D : List Range) (hfile : Option HashInfo)
    (fixups : List Fixup) : Prop extends DeltaArgs input D hfile fixups where
  inPart : ∀ d ∈ D, input.poffset ≤ d.start
  /-- In the file, regions are relative to the partition. -/
  blocks : ∀ hreg ∈ (hfile.getD emptyHashInfo).regions,
    hreg.region.start % (fileEnv input hfile).hashblksize + hreg.region.size ≤ (fileEnv input hfile).hashblksize
  made : ∀ fp ∈ fixups, fp.IsMade

/-- The regions are those of a signature of the allocated ranges `D`. -/
structure IsSignature (env : DeltaEnv) (D : List Range) (L : List HashRegion) : Prop where
  ascending : Ascending (L.map (·.region))
  /-- Together they cover what is allocated. -/
  covers : ∀ x, Covered D x → Covered (L.map (·.region)) x
  /-- Each is within a hash block. -/
  blocks : ∀ r ∈ L, InBlock env r.region
  fits : ∀ r ∈ L, r.region.stop < 2 ^ 32

/-- Applied in the order of the copy, where fixups that begin at the same byte are in reverse,
    the fixups give the same bytes. -/
def OrderFree (disk : Nat → Byte) (fixups : List Fixup) : Prop :=
  ∀ p, fixedByte (savefixups fixups) p (disk p) = fixedByte fixups p (disk p)

/-- The hash function tells the contents that the two orders give apart. -/
def TellsApart (env : DeltaEnv) (fixups : List Fixup) : Prop :=
  ∀ r, env.hashfunc (contents env (savefixups fixups) r) = env.hashfunc (contents env fixups r) →
    contents env (savefixups fixups) r = contents env fixups r

theorem SignArgs.inBlock {input : DeltaInput} {D : List Range} {hfile : Option HashInfo}
    (h : SignArgs input D hfile fixups) :
    ∀ hreg ∈ diskRegions input.poffset hfile, InBlock (fileEnv input hfile) hreg.region := by
  intro hreg hmem
  have hpos := h.regions.nonempty hreg.region (List.mem_map_of_mem hmem)
  obtain ⟨hreg₀, hmem₀, rfl⟩ := List.mem_map.mp hmem
  refine ⟨hpos, Nat.le_add_left _ _, ?_⟩
  have hpoffset : (fileEnv input hfile).poffset = input.poffset := rfl
  simp only [hpoffset, Nat.add_sub_cancel]
  exact h.blocks hreg₀ hmem₀

theorem savefixups_sorted (fixups : List Fixup) :
    (savefixups fixups).Pairwise fun fp fp' => fp.offset ≤ fp'.offset := by
  have hsorted := @List.pairwise_mergeSort Fixup (fun fp fp' => fp.offset ≤ fp'.offset)
    (by simp only [decide_eq_true_eq]; omega) (by simp only [Bool.or_eq_true, decide_eq_true_eq]; omega)
    (fixups.map fun fp => { fp with reloctype := RELOC_NONE }).reverse
  exact hsorted.imp fun hle => by simpa using hle

theorem copied_savefixups (h : ∀ fp ∈ fixups, fp.IsMade) : Copied (savefixups fixups) := by
  refine ⟨savefixups_sorted fixups, ?_⟩
  intro fp hfp
  unfold savefixups at hfp
  rw [List.mem_mergeSort, List.mem_reverse] at hfp
  obtain ⟨fp₀, hfp₀, rfl⟩ := List.mem_map.mp hfp
  exact (h fp₀ hfp₀).imp (fun hdata => ⟨hdata.nofunc, hdata.length⟩) id

theorem modifies_savefixups {p : Nat} : Modifies (savefixups fixups) p ↔ Modifies fixups p := by
  unfold savefixups Modifies
  constructor
  · intro hm
    obtain ⟨fp, hfp, hin⟩ := hm
    rw [List.mem_mergeSort, List.mem_reverse] at hfp
    obtain ⟨fp₀, hfp₀, rfl⟩ := List.mem_map.mp hfp
    exact ⟨fp₀, hfp₀, hin⟩
  · intro hm
    exact (pending_savefixups fixups).kept p (Nat.zero_le p) hm

theorem hashmapComputeDelta_signs {input : DeltaInput} {D : List Range}
    {hfile : Option HashInfo} (h : SignArgs input D hfile fixups) :
    Yields True (hashmapComputeDelta input D hfile fixups) fun r => ∀ info ∈ r.2,
      IsSignature (fileEnv input hfile) D info.regions ∧
        Hashed (fileEnv input hfile) (savefixups fixups) info.regions ∧
        ∀ p, Modifies fixups p → Covered (info.regions.map (·.region)) (bytestosec p) := by
  have hS := copied_savefixups h.made
  unfold hashmapComputeDelta
  apply Yields.bind (yields_assert (Or.inl trivial))
  intro _ _
  apply Yields.bind (signature_yields h.regionsFit (Or.inl trivial))
  intro hinfo hhinfo
  obtain ⟨henv, hhregs⟩ := hhinfo
  dsimp only
  rw [henv, hhregs]
  by_cases hnew : input.newhashfile = true
  swap
  · -- no new signature is asked for
    apply Yields.bind (yields_of_ok trivial fun _ _ => trivial)
    intro r _
    apply Yields.bind (yields_of_ok trivial fun _ _ => trivial)
    intro r' _
    rw [if_neg hnew]
    exact fun info hinfo => nomatch hinfo
  have hstart : SignScan (fileEnv input hfile) (savefixups fixups) 0 D ⟨savefixups fixups, [], none⟩ := by
    have hzero : sectobytes 0 = 0 := Nat.zero_mul _
    constructor
    · constructor
      · exact ⟨⟨by simp [HashState.regions], by simp [HashState.regions]⟩,
          by simp [HashState.regions], by simp [HashState.regions], by simp [HashState.regions]⟩
      · right
        constructor
        · unfold Left
          rw [hzero, filterMap_after_eq_self fun fp _ => Nat.zero_le _]
        · constructor
          · simp [Hashed, HashState.regions]
          · intro p hp
            omega
    · exact ⟨⟨h.ranges, fun d _ => Nat.zero_le _, h.rangesFit, fun d _ => Or.inl trivial⟩, h.inPart⟩
  rw [if_pos hnew]
  apply Yields.bind (deltaLoop_signs hS hnew hstart h.regions (by simp) h.inBlock h.regionsFit)
  intro r hr
  obtain ⟨⟨c, hscan⟩, hcovers⟩ := hr
  apply Yields.bind (keepRest_signs hS hnew hscan)
  intro r' hr'
  obtain ⟨⟨c', hsigns⟩, hcovers'⟩ := hr'
  rw [if_pos hnew]
  apply Yields.bind (yields_assert (Or.inl trivial))
  intro _ hempty
  have hempty : r'.2.fixups = [] := by simpa using hempty
  intro info hinfo
  obtain rfl := Option.some.inj hinfo
  -- no fixup is left, so none has been missed
  have hexact : Exact (fileEnv input hfile) (savefixups fixups) c' r'.2 := by
    apply hsigns.exact.resolve_left
    intro hlate
    obtain ⟨fp, hfp, -⟩ := hlate
    rw [hempty] at hfp
    cases hfp
  refine ⟨⟨hsigns.shape.ascending, ?_, hsigns.shape.inBlock, hsigns.shape.fits⟩, hexact.right.hashed, ?_⟩
  · intro x hx
    exact hcovers' x (hcovers x (Or.inr hx))
  · intro p hm
    have hm := modifies_savefixups.mpr hm
    apply hexact.right.met p _ hm
    by_contra hbehind
    have hleft := modifies_after (Nat.le_of_not_lt hbehind) hm
    have hnone : (savefixups fixups).filterMap (Fixup.after (sectobytes c')) = [] := by
      rw [← hempty]
      exact hexact.left.symm
    rw [hnone] at hleft
    obtain ⟨fp, hfp, -⟩ := hleft
    cases hfp

theorem getElem?_contents {r : Range} {i : Nat} (hi : i < sectobytes r.size) :
    (contents env fixups r)[i]? = some (fixedByte fixups (sectobytes r.start + i)
      (env.disk (sectobytes r.start + i))) := by
  unfold contents
  rw [getElem?_fixedBytes]
  simp [readBytes, hi]

theorem contents_congr {disk : Nat → Byte} (h : OrderFree disk fixups) (hdisk : env.disk = disk) (r : Range) :
    contents env (savefixups fixups) r = contents env fixups r := by
  apply List.ext_getElem?
  intro i
  by_cases hi : i < sectobytes r.size
  · rw [getElem?_contents hi, getElem?_contents hi, hdisk, h]
  · rw [List.getElem?_eq_none, List.getElem?_eq_none]
    · simp only [contents, length_fixedBytes, length_readBytes]
      omega
    · simp only [contents, length_fixedBytes, length_readBytes]
      omega

/-- The address of a sector, as LILO keeps it in its tables. -/
def liloSaddr : List Byte := [1, 0, 0, 0, 0]

/-- A sector of a LILO table that is free by now, where small free ranges are zeroed. -/
def zeroThenLilo : List Fixup :=
  [⟨0, 0, 512, RELOC_NONE, [], some zerofixup⟩, ⟨0, 0, 5, 3, liloSaddr, none⟩]

/-- The SHA1 digest of a sector of zeros. -/
def zeroDigest : List Byte :=
  [92, 62, 184, 0, 102, 66, 0, 2, 188, 61, 204, 124, 164, 171, 110, 250, 215, 237, 74, 229]

/-- The SHA1 digest of a sector with the address, and zeros. -/
def liloDigest : List Byte :=
  [65, 116, 146, 124, 89, 133, 76, 128, 211, 60, 105, 231, 164, 56, 86, 178, 182, 198, 175, 132]

/-- A disk of one sector, with the digests of the two contents. -/
def liloDisk : DeltaInput where
  disk := fun _ => 7
  diskSize := SECSIZE
  md5 := fun _ => []
  sha1 := fun data => if data = List.replicate 512 0 then zeroDigest else liloDigest
  hashFree := false
  poffset := 0
  newhashfile := true

/-- The copied list has the fixups in reverse. -/
theorem savefixups_zeroThenLilo : savefixups zeroThenLilo =
    [⟨0, 0, 5, RELOC_NONE, liloSaddr, none⟩, ⟨0, 0, 512, RELOC_NONE, [], some zerofixup⟩] := by
  unfold savefixups zeroThenLilo
  simp [List.mergeSort, List.MergeSort.Internal.splitInTwo]

theorem hashmapComputeDelta_sector {input : DeltaInput} {hash : List Byte}
    (hnew : input.newhashfile = true) (hpart : input.poffset = 0)
    (hhash : hashRange (fileEnv input none) ⟨savefixups fixups, [], none⟩ 0 1 = .ok (hash, ⟨[], [], none⟩)) :
    hashmapComputeDelta input [⟨0, 1⟩] none fixups =
      .ok ([⟨0, 1⟩], some { emptyHashInfo with regions := [⟨⟨0, 1⟩, 0, hash⟩] }) := by
  have hpoffset : (fileEnv input none).poffset = 0 := hpart
  have hblksize : (fileEnv input none).hashblksize = 128 := rfl
  have hdone : ∀ st', addToHashmapLoop (fileEnv input none) 0 1 0 none st' = .ok st' := by
    intro st'
    unfold addToHashmapLoop
    rw [if_pos rfl]
  have hadd : addToHashmap (fileEnv input none) ⟨savefixups fixups, [], none⟩ 0 1 none =
      .ok ⟨[], [], some [⟨⟨0, 1⟩, 0, hash⟩]⟩ := by
    unfold addToHashmap
    rw [hpoffset, hblksize, if_neg (by decide)]
    unfold addToHashmapLoop
    have hsize : (if subU32 0 0 % 128 ≠ 0 then min (128 - subU32 0 0 % 128) 1
        else if 128 < 1 then 128 else 1) = 1 := by decide
    rw [if_neg (by decide), hblksize]
    dsimp only
    rw [hsize, dif_neg (by decide), hhash]
    exact hdone _
  have hkeep : keepRange (fileEnv input none) [dummyHead] ⟨savefixups fixups, [], none⟩ 0 1 =
      .ok ([⟨0, 1⟩, dummyHead], ⟨[], [], some [⟨⟨0, 1⟩, 0, hash⟩]⟩) := by
    have hnew' : (fileEnv input none).newhashfile = true := hnew
    unfold keepRange hashNew
    rw [if_pos hnew', hadd]
    rfl
  unfold hashmapComputeDelta
  simp only [signature, hnew]
  have hrest : keepRest (fileEnv input none) [] [⟨0, 1⟩] [dummyHead] ⟨savefixups fixups, [], none⟩ = .ok ([⟨0, 1⟩, dummyHead], ⟨[], [], some [⟨⟨0, 1⟩, 0, hash⟩]⟩) := by
    unfold keepRest
    rw [hkeep]
    rfl
  show (do
    let r ← keepRest (fileEnv input none) [] [⟨0, 1⟩] [dummyHead] ⟨savefixups fixups, [], none⟩
    _) = _
  rw [hrest]
  rfl

theorem applyfixups_lilo_zero {n : Nat} (data : List Byte) (hlen : data.length = n) (h5 : 5 ≤ n)
    (hn : n < 2 ^ 32) :
    applyfixups 0 n [⟨0, 0, 5, RELOC_NONE, liloSaddr, none⟩,
      ⟨0, 0, n, RELOC_NONE, [], some zerofixup⟩] data = .ok (List.replicate n 0, [], []) := by
  have hmod : n % 4294967296 = n := Nat.mod_eq_of_lt hn
  have hpos : n ≠ 0 := by omega
  have hnot : ¬n < 5 := by omega
  simp [applyfixups, overwrite, zerofixup, liloSaddr, hlen, hmod, hpos, hnot, assert_true, bind_of_ok rfl]
  rw [show min n (n - 5 + 1 + 1 + 1 + 1 + 1) = n by omega, List.drop_eq_nil_of_le, List.append_nil]
  simp only [List.length_cons, List.length_drop]
  omega

theorem hashRange_lilo : hashRange (fileEnv liloDisk none) ⟨savefixups zeroThenLilo, [], none⟩ 0 1 =
      .ok (liloDisk.sha1 (List.replicate 512 0), ⟨[], [], none⟩) := by
  have happly := applyfixups_lilo_zero (readBytes liloDisk.disk 0 512)
    (length_readBytes _ _ _) (by decide) (by decide)
  have hfile : ¬(0 < 1 ∧ (fileEnv liloDisk none).diskSize < sectobytes 0 + sectobytes 1) := by decide
  have hfix : hasfixup [⟨0, 0, 5, RELOC_NONE, liloSaddr, none⟩,
      ⟨0, 0, 512, RELOC_NONE, [], some zerofixup⟩] 0 1 = true := by decide
  have hdisk : (fileEnv liloDisk none).disk = liloDisk.disk := rfl
  have hhashfunc : (fileEnv liloDisk none).hashfunc = liloDisk.sha1 := rfl
  have hzero : sectobytes 0 = 0 := rfl
  have hone : sectobytes 1 = 512 := rfl
  rw [savefixups_zeroThenLilo]
  unfold hashRange
  rw [if_neg hfile]
  simp only [hfix, if_true, hdisk, hhashfunc, hzero, hone, happly]
  rfl

/-- What the program makes of the sector. -/
theorem liloDisk_args : SignArgs liloDisk [⟨0, 1⟩] none zeroThenLilo := by
  constructor
  · constructor
    · exact ⟨by simp, by simp⟩
    · simp [stop]
    · exact ⟨by simp [diskRegions, emptyHashInfo], by simp [diskRegions, emptyHashInfo]⟩
    · simp [diskRegions, emptyHashInfo]
    · simp [zeroThenLilo]
  · exact fun d _ => Nat.zero_le _
  · simp [emptyHashInfo]
  · intro fp hfp
    unfold zeroThenLilo at hfp
    rcases List.mem_cons.mp hfp with rfl | hfp
    · exact Or.inr rfl
    · obtain rfl := List.mem_singleton.mp hfp
      exact Or.inl ⟨rfl, by decide⟩

/-- With the order of the list the sector would begin with the address. -/
theorem zeroThenLilo_first (b : Byte) : fixedByte zeroThenLilo 0 b = 1 := by
  simp [zeroThenLilo, fixedByte, Fixup.value, liloSaddr]

/-- The program returns a signature of the sector. -/
theorem hashmapComputeDelta_lilo : hashmapComputeDelta liloDisk [⟨0, 1⟩] none zeroThenLilo =
    .ok ([⟨0, 1⟩], some { emptyHashInfo with
      regions := [⟨⟨0, 1⟩, 0, liloDisk.sha1 (List.replicate 512 0)⟩] }) :=
  hashmapComputeDelta_sector rfl rfl hashRange_lilo

/-- **Restoring.** The delta is written over a disk with the contents that the signature was made of.
    Then everything that is allocated is as in the image, unless different contents of a region
    have the same hash. -/
theorem delta_restores {input : DeltaInput} {D : List Range} {hfile : Option HashInfo}
    (h : DeltaArgs input D hfile fixups) {ranges : List Range} {newhash : Option HashInfo}
    (hok : hashmapComputeDelta input D hfile fixups = .ok (ranges, newhash)) {old restored : Nat → Byte}
    (hsigned : ∀ hreg ∈ diskRegions input.poffset hfile, SameHash (fileEnv { input with disk := old } hfile) hreg)
    (hfree : ∀ hreg ∈ diskRegions input.poffset hfile, SameHash (fileEnv { input with disk := old } hfile) hreg →
      SameHash (fileEnv input hfile) hreg → ∀ p, sectobytes hreg.region.start ≤ p →
        p < sectobytes hreg.region.stop → old p = input.disk p)
    (hwritten : ∀ p, Covered ranges (bytestosec p) → restored p = fixedByte fixups p (input.disk p))
    (hkept : ∀ p, ¬Covered ranges (bytestosec p) → restored p = old p) {p : Nat} (hp : Covered D (bytestosec p)) :
    restored p = fixedByte fixups p (input.disk p) := by
  by_cases hin : Covered ranges (bytestosec p)
  · exact hwritten p hin
  · have hdelta := (hashmapComputeDelta_yields h).of_ok hok
    obtain ⟨hreg, hmem, hhas, hsame, hfix⟩ := hdelta.sound _ hp hin
    obtain ⟨hlo, hhi⟩ : sectobytes hreg.region.start ≤ p ∧ p < sectobytes hreg.region.stop := by
      unfold Has bytestosec at hhas
      unfold sectobytes SECSIZE at *
      omega
    rw [hkept p hin, fixedByte_of_not_modifies (hfix p hlo hhi)]
    exact hfree hreg hmem (hsigned hreg hmem) hsame p hlo hhi

/-- The second sector is kept as it is, and the others are written. -/
theorem delta_restores_zeros : ∃ ranges newhash,
    hashmapComputeDelta zeroDisk [⟨0, 3⟩] (some zeroSignature) [] = .ok (ranges, newhash) ∧
      ∀ restored : Nat → Byte, (∀ p, Covered ranges (bytestosec p) → restored p = 0) →
        (∀ p, ¬Covered ranges (bytestosec p) → restored p = if bytestosec p = 1 then 0 else 1) →
        ∀ p, bytestosec p < 3 → restored p = 0 := by
  have hargs : DeltaArgs zeroDisk [⟨0, 3⟩] (some zeroSignature) [] := by
    constructor
    · exact ⟨by simp, by simp⟩
    · simp [stop]
    · exact ⟨by decide, List.pairwise_singleton _ _⟩
    · decide
    · exact List.Pairwise.nil
  obtain ⟨r, hok, -⟩ := (hashmapComputeDelta_yields hargs).returns
    (not_not_intro ⟨by simp, by decide, by decide, Or.inl rfl⟩)
  refine ⟨r.1, r.2, hok, fun restored hwritten hkept p hp => ?_⟩
  apply delta_restores hargs hok ?_ ?_ hwritten hkept
  · exact ⟨_, List.mem_singleton_self _, Nat.zero_le _, hp⟩
  · intro hreg hmem
    obtain rfl := List.mem_singleton.mp hmem
    rfl
  · intro hreg hmem _ _ p hlo hhi
    obtain rfl := List.mem_singleton.mp hmem
    have hlo : 512 ≤ p := hlo
    have hhi : p < 1024 := hhi
    exact if_pos (show p / 512 = 1 by omega)

end Emulab.Imagezip
