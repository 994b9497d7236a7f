import Emulab.Imagezip.Hashmap

/-! # What a delta image leaves out

  The scan of `hashmap_compute_delta` is at a sector `c`: what it has put
  into the new list ends at `c` or before, and what is left of the allocated
  ranges begins there or behind. Together the two cover what is allocated,
  except for sectors in regions that have not changed.
-/

namespace Emulab.Imagezip

open MachineInt Outcome Extent List

variable {env : DeltaEnv} {m : Prop} {orig : List Fixup}

/-! ## Section 1: Hashing -/

/-- No fixup behind sector `c` has been lost. -/
structure FixupsAt (orig : List Fixup) (c : Nat) (st : HashState) : Prop where
  pending : Pending orig (sectobytes c) st.fixups
  empty : orig = [] → st.fixups = []

variable {st : HashState}

theorem FixupsAt.mono {c c' : Nat} (h : FixupsAt orig c st) (hle : c ≤ c') : FixupsAt orig c' st :=
  ⟨h.pending.mono (sectobytes_le hle), h.empty⟩

theorem hashRange_fixups {start size : Nat} (h : FixupsAt orig start st)
    (hm : m ∨ size ≤ env.hashblksize ∧ sectobytes (start + size) ≤ env.diskSize ∧ orig = []) :
    Yields m (hashRange env st start size) fun r => FixupsAt orig (start + size) r.2 := by
  unfold hashRange
  apply Yields.bind
  · apply yields_assert
    exact hm.imp_right fun hm => by simpa using hm.1
  intro _ _
  split
  · rename_i hfile
    rcases hm with hm | hm
    · exact hm
    · have := hm.2.1
      rw [sectobytes_add] at this
      omega
  split
  · rename_i hfix
    rcases hm with hm | hm
    · dsimp only
      apply Yields.bind
      · exact yields_of_ok hm fun r happly => h.pending.applyfixups (Nat.le_refl _) happly
      · intro r hr
        rw [← sectobytes_add] at hr
        constructor
        · exact hr
        · intro hnone
          rw [h.empty hnone] at hfix
          simp [hasfixup] at hfix
    · rw [h.empty hm.2.2] at hfix
      simp [hasfixup] at hfix
  · exact h.mono (Nat.le_add_right _ _)

theorem hashRange_disk {start size : Nat} (hfix : hasfixup st.fixups start size = false)
    (hm : m ∨ size ≤ env.hashblksize ∧ sectobytes (start + size) ≤ env.diskSize) :
    Yields m (hashRange env st start size) fun r =>
      r = (env.hashfunc (readBytes env.disk (sectobytes start) (sectobytes size)), st) := by
  unfold hashRange
  apply Yields.bind
  · apply yields_assert
    exact hm.imp_right fun hm => by simpa using hm.1
  intro _ _
  split
  · rename_i hfile
    rcases hm with hm | hm
    · exact hm
    · have := hm.2
      rw [sectobytes_add] at this
      omega
  · rw [hfix]
    exact rfl

theorem addToHashmapLoop_fixups {offset rstart rsize : Nat}
    (h : FixupsAt orig rstart st) (hstop : rstart + rsize < 2 ^ 32)
    (hm : m ∨ offset < env.hashblksize ∧ sectobytes (rstart + rsize) ≤ env.diskSize ∧ orig = []) :
    Yields m (addToHashmapLoop env offset rstart rsize none st) fun st' => FixupsAt orig (rstart + rsize) st' := by
  induction rsize using Nat.strong_induction_on generalizing offset rstart st with
  | _ rsize ih =>
    unfold addToHashmapLoop
    split
    · exact h.mono (Nat.le_add_right _ _)
    rename_i hrsize
    generalize hhsize : (if offset ≠ 0 then min (env.hashblksize - offset) rsize
      else if env.hashblksize < rsize then env.hashblksize else rsize) = hsize
    have hle : hsize ≤ rsize := by
      split_ifs at hhsize <;> omega
    dsimp only
    split
    · rename_i hzero
      rcases hm with hm | hm
      · exact hm
      · split_ifs at hhsize <;> omega
    · -- one piece, and the loop for the rest
      rename_i hpos
      have hadd : addU32 rstart hsize = rstart + hsize := addU32_of_lt (by omega)
      have hrest : rstart + hsize + (rsize - hsize) = rstart + rsize := by omega
      apply Yields.bind
      · apply hashRange_fixups h
        refine hm.imp_right fun hm => ⟨?_, ?_, hm.2.2⟩
        · split_ifs at hhsize <;> omega
        · exact Nat.le_trans (sectobytes_le (by omega)) hm.2.1
      · intro r hr
        rw [hadd, ← hrest]
        apply ih (rsize - hsize) (by omega)
        · exact ⟨hr.pending, hr.empty⟩
        · omega
        · rw [hrest]
          exact hm.imp_right fun hm => ⟨by omega, hm.2⟩

/-- Hashing a range for the new signature. -/
theorem addToHashmap_fixups {rstart rsize : Nat} (h : FixupsAt orig rstart st) (hstop : rstart + rsize < 2 ^ 32)
    (hm : m ∨ 0 < env.hashblksize ∧ sectobytes (rstart + rsize) ≤ env.diskSize ∧ orig = []) :
    Yields m (addToHashmap env st rstart rsize none) fun st' => FixupsAt orig (rstart + rsize) st' := by
  unfold addToHashmap
  split
  · rename_i hzero
    exact hm.resolve_right fun hm => by omega
  · apply addToHashmapLoop_fixups h hstop
    exact hm.imp_right fun hm => ⟨Nat.mod_lt _ hm.1, hm.2⟩

theorem addToHashmapLoop_given {offset rstart rsize : Nat} {hash : List Byte} (hm : m ∨ offset < env.hashblksize) :
    Yields m (addToHashmapLoop env offset rstart rsize (some hash) st) fun st' => st'.fixups = st.fixups := by
  induction rsize using Nat.strong_induction_on generalizing offset rstart st with
  | _ rsize ih =>
    unfold addToHashmapLoop
    split
    · exact rfl
    generalize hhsize : (if offset ≠ 0 then min (env.hashblksize - offset) rsize
      else if env.hashblksize < rsize then env.hashblksize else rsize) = hsize
    dsimp only
    split
    · rcases hm with hm | hm
      · exact hm
      · split_ifs at hhsize <;> omega
    · have hlt : rsize - hsize < rsize := by omega
      have hloop : Yields m (addToHashmapLoop env 0 (addU32 rstart hsize) (rsize - hsize) (some hash)
          (addhash st rstart hsize hash)) fun st' =>
          st'.fixups = (addhash st rstart hsize hash).fixups :=
        ih (rsize - hsize) hlt (hm.imp_right fun hm => Nat.zero_lt_of_lt hm)
      exact hloop

theorem addToHashmap_given {rstart rsize : Nat} {hash : List Byte} (hm : m ∨ 0 < env.hashblksize) :
    Yields m (addToHashmap env st rstart rsize (some hash)) fun st' => st'.fixups = st.fixups := by
  unfold addToHashmap
  split
  · rename_i hzero
    exact hm.resolve_right fun hm => by omega
  · apply addToHashmapLoop_given
    exact hm.imp_right fun hm => Nat.mod_lt _ hm

/-! ## Section 2: The new list -/

/-- What is in the new list, the last range first. -/
structure Built (c : Nat) (l : List Range) : Prop where
  nonempty : ∀ e ∈ l, 0 < e.size
  apart : l.Pairwise fun e e' => e'.stop < e.start
  before : ∀ e ∈ l, e.stop ≤ c

variable {l : List Range}

theorem Built.mono {c c' : Nat} (h : Built c l) (hle : c ≤ c') : Built c' l :=
  ⟨h.nonempty, h.apart, fun e he => Nat.le_trans (h.before e he) hle⟩

theorem Built.separated {c : Nat} (h : Built c l) : Separated l.reverse := by
  constructor
  · intro e he
    exact h.nonempty e (mem_reverse.mp he)
  · exact pairwise_reverse.mpr h.apart

variable {c start size : Nat}

/-- Adding a range behind the list, coalesced with the last one or not. -/
theorem Built.addToRange (h : Built c l) (hc : c ≤ start) (hsize : 0 < size) (hstop : start + size < 2 ^ 32) :
    ∃ l', Imagezip.addToRange (l ++ [dummyHead]) start size = l' ++ [dummyHead] ∧
      Built (start + size) l' ∧ ∀ x, Covered l' x ↔ Covered l x ∨ Has ⟨start, size⟩ x := by
  have hgrown := h.mono (show c ≤ start + size by omega)
  cases l with
  | nil =>
    have hdummy : rangeEnd dummyHead ≠ start := by
      have : rangeEnd dummyHead = 2 ^ 32 - 1 := by decide
      omega
    refine ⟨[⟨start, size⟩], ?_, ?_, ?_⟩
    · simp [Imagezip.addToRange, hdummy]
    · constructor
      · simpa using hsize
      · simp
      · simp [stop]
    · simp
  | cons tail rest =>
    obtain ⟨hfirst, hrest⟩ := pairwise_cons.mp h.apart
    have htail := h.before tail mem_cons_self
    have hend : rangeEnd tail = tail.stop := rangeEnd_eq (by omega)
    by_cases heq : tail.stop = start
    · -- the range is coalesced with the last one
      have hadd : addU32 tail.size size = tail.size + size := by
        apply addU32_of_lt
        unfold stop at heq
        omega
      refine ⟨⟨tail.start, tail.size + size⟩ :: rest, ?_, ?_, ?_⟩
      · simp [Imagezip.addToRange, hend, heq, hadd]
      · constructor
        · intro e he
          rcases mem_cons.mp he with rfl | he
          · exact Nat.add_pos_right _ hsize
          · exact h.nonempty e (mem_cons_of_mem _ he)
        · exact pairwise_cons.mpr ⟨hfirst, hrest⟩
        · intro e he
          rcases mem_cons.mp he with rfl | he
          · simp only [stop] at heq ⊢
            omega
          · exact hgrown.before e (mem_cons_of_mem _ he)
      · intro x
        simp only [covered_cons, Has, stop] at heq ⊢
        grind
    · refine ⟨⟨start, size⟩ :: tail :: rest, ?_, ?_, ?_⟩
      · simp [Imagezip.addToRange, hend, heq]
      · constructor
        · intro e he
          rcases mem_cons.mp he with rfl | he
          · exact hsize
          · exact h.nonempty e he
        · refine pairwise_cons.mpr ⟨?_, h.apart⟩
          intro e he
          rcases mem_cons.mp he with rfl | he
          · exact Nat.lt_of_le_of_ne (Nat.le_trans htail hc) heq
          · have hlt := hfirst e he
            have : tail.start ≤ tail.stop := Nat.le_add_right _ _
            simp only
            omega
        · intro e he
          rcases mem_cons.mp he with rfl | he
          · exact Nat.le_refl _
          · exact hgrown.before e he
      · intro x
        rw [covered_cons]
        exact Or.comm

/-! ## Section 3: The scan -/

/-- Sectors before `stop` can be hashed for a new signature, if there is to be one. -/
def CanHash (env : DeltaEnv) (m : Prop) (orig : List Fixup) (stop : Nat) : Prop :=
  m ∨ env.newhashfile = false ∨ 0 < env.hashblksize ∧ sectobytes stop ≤ env.diskSize ∧ orig = []

theorem CanHash.mono {stop stop' : Nat} (h : CanHash env m orig stop) (hle : stop' ≤ stop) :
    CanHash env m orig stop' :=
  h.imp_right fun h => h.imp_right fun h =>
    ⟨h.1, Nat.le_trans (sectobytes_le hle) h.2.1, h.2.2⟩

/-- At sector `c`, the ranges of `l` are in the new list. -/
structure Scan (orig : List Fixup) (c : Nat) (l : List Range) (out : RangeTail)
    (st : HashState) : Prop where
  /-- The new list has them behind its dummy head. -/
  out_eq : out = l ++ [dummyHead]
  built : Built c l
  /-- No fixup behind `c` has been lost. -/
  fixups : FixupsAt orig c st

variable {out : RangeTail}

theorem Scan.mono {c c' : Nat} (h : Scan orig c l out st) (hle : c ≤ c') : Scan orig c' l out st :=
  ⟨h.out_eq, h.built.mono hle, h.fixups.mono hle⟩

/-- What is left of the allocated ranges at sector `c`. -/
structure Ahead (env : DeltaEnv) (m : Prop) (orig : List Fixup) (c : Nat) (ds : List Range) :
    Prop where
  ascending : Ascending ds
  behind : ∀ d ∈ ds, c ≤ d.start
  fits : ∀ d ∈ ds, d.stop < 2 ^ 32
  canHash : ∀ d ∈ ds, CanHash env m orig d.stop

theorem Ahead.tail {c : Nat} {d : Range} {ds : List Range} (h : Ahead env m orig c (d :: ds)) :
    Ahead env m orig d.stop ds := by
  obtain ⟨-, hfirst, hrest⟩ := ascending_cons.mp h.ascending
  exact ⟨hrest, hfirst, fun e he => h.fits e (mem_cons_of_mem _ he),
    fun e he => h.canHash e (mem_cons_of_mem _ he)⟩

theorem Ahead.cut {c k : Nat} {d : Range} {ds : List Range} (h : Ahead env m orig c (d :: ds))
    (hhi : k < d.stop) : Ahead env m orig k (⟨k, d.stop - k⟩ :: ds) := by
  have hstop : stop ⟨k, d.stop - k⟩ = d.stop := by
    exact Nat.add_sub_cancel' (Nat.le_of_lt hhi)
  obtain ⟨-, hfirst, -⟩ := ascending_cons.mp h.ascending
  constructor
  · exact h.ascending.trim (Nat.sub_pos_of_lt hhi) hstop
  · intro e he
    rcases mem_cons.mp he with rfl | he
    · exact Nat.le_refl _
    · exact Nat.le_trans (Nat.le_of_lt hhi) (hfirst e he)
  · intro e he
    rcases mem_cons.mp he with rfl | he
    · rw [hstop]
      exact h.fits d mem_cons_self
    · exact h.fits e (mem_cons_of_mem _ he)
  · intro e he
    rcases mem_cons.mp he with rfl | he
    · rw [hstop]
      exact h.canHash d mem_cons_self
    · exact h.canHash e (mem_cons_of_mem _ he)

/-- The sector is in the new list, or in a range that is left. -/
def Remains (l ds : List Range) (x : Nat) : Prop := Covered l x ∨ Covered ds x

theorem hashNew_fixups {start size : Nat} (h : FixupsAt orig start st)
    (hstop : start + size < 2 ^ 32) (hcan : CanHash env m orig (start + size)) :
    Yields m (hashNew env st start size none) fun st' => FixupsAt orig (start + size) st' := by
  unfold hashNew
  split
  · rename_i hnew
    apply addToHashmap_fixups h hstop
    exact hcan.imp_right fun hcan => hcan.resolve_left (by simp [hnew])
  · exact h.mono (Nat.le_add_right _ _)

theorem keepRange_scan (h : Scan orig c l out st) (hc : c ≤ start) (hsize : 0 < size)
    (hstop : start + size < 2 ^ 32) (hcan : CanHash env m orig (start + size)) :
    Yields m (keepRange env out st start size) fun r =>
      ∃ l', Scan orig (start + size) l' r.1 r.2 ∧ ∀ x, Covered l' x ↔ Covered l x ∨ Has ⟨start, size⟩ x := by
  unfold keepRange
  apply Yields.bind
  · exact hashNew_fixups (h.fixups.mono hc) hstop hcan
  · intro st' hst'
    obtain ⟨l', hout, hbuilt, hcovered⟩ := h.built.addToRange hc hsize hstop
    rw [← h.out_eq] at hout
    exact ⟨l', ⟨hout, hbuilt, hst'⟩, hcovered⟩

/-! ## Section 4: One region -/

/-- Ranges that end before a region are all put into the new list. -/
theorem keepBefore_scan {hstart c : Nat} {ds l : List Range}
    (h : Scan orig c l out st) (ha : Ahead env m orig c ds) (hc : c ≤ hstart) :
    Yields m (keepBefore env hstart ds out st) fun s =>
      ∃ c' l', c' ≤ hstart ∧ Scan orig c' l' s.out s.st ∧ Ahead env m orig c' s.dranges ∧
        (∀ x, Remains l' s.dranges x ↔ Remains l ds x) ∧
        ∀ d ∈ s.dranges.head?, hstart < d.stop := by
  induction ds generalizing c l out st with
  | nil =>
    unfold keepBefore
    exact ⟨c, l, hc, h, ha, fun x => Iff.rfl, by simp⟩
  | cons d next ih =>
    have hfits := ha.fits d mem_cons_self
    unfold keepBefore
    rw [rangeEnd_eq hfits]
    split
    · rename_i hbefore
      apply Yields.bind
      · exact keepRange_scan h (ha.behind d mem_cons_self)
          (ha.ascending.nonempty d mem_cons_self) hfits (ha.canHash d mem_cons_self)
      intro r hr
      obtain ⟨l₁, hscan₁, hcovered₁⟩ := hr
      apply Yields.bind
      · apply yields_assert
        right
        simpa using ha.tail.ascending.nonempty
      intro _ _
      apply (ih hscan₁ ha.tail hbefore).imp
      intro s hs
      obtain ⟨c', l', hc', hscan', ha', hremains, hhead⟩ := hs
      refine ⟨c', l', hc', hscan', ha', ?_, hhead⟩
      intro x
      rw [hremains x]
      simp only [Remains, hcovered₁, covered_cons]
      exact or_assoc
    · rename_i hbehind
      exact ⟨c, l, hc, h, ha, fun x => Iff.rfl, by simpa using hbehind⟩

/-- The part of a range that falls before a region is put into the new list. -/
theorem keepHead_scan {hstart c : Nat} {d : Range} {next l : List Range}
    (h : Scan orig c l out st) (ha : Ahead env m orig c (d :: next)) (hc : c ≤ hstart) (hd : hstart < d.stop) :
    Yields m (keepHead env hstart d out st) fun r =>
      ∃ c' l', c' ≤ hstart ∧ Scan orig c' l' r.2.1 r.2.2 ∧
        Ahead env m orig c' (r.1 :: next) ∧ r.1.start = max d.start hstart ∧
        ∀ x, Remains l' (r.1 :: next) x ↔ Remains l (d :: next) x := by
  have hfits := ha.fits d mem_cons_self
  unfold keepHead
  split
  · rename_i hlt
    have hsub : subU32 hstart d.start = hstart - d.start := subU32_of_le (Nat.le_of_lt hlt) (by omega)
    have hadd : d.start + (hstart - d.start) = hstart := by omega
    have hsize : subU32 d.size (hstart - d.start) = d.stop - hstart := by
      unfold stop at hd hfits ⊢
      rw [subU32_of_le (by omega) (by omega)]
      omega
    rw [hsub]
    dsimp only
    rw [addU32_of_lt (a := d.start) (by omega), hadd, hsize]
    apply Yields.bind
    · apply keepRange_scan h (ha.behind d mem_cons_self) (by omega)
      · omega
      · exact (ha.canHash d mem_cons_self).mono (by omega)
    intro r hr
    rw [hadd] at hr
    obtain ⟨l', hscan', hcovered'⟩ := hr
    refine ⟨hstart, l', Nat.le_refl _, hscan', ha.cut hd, ?_, ?_⟩
    · exact (Nat.max_eq_right (Nat.le_of_lt hlt)).symm
    · intro x
      simp only [Remains, hcovered', covered_cons, Has, stop] at hd ⊢
      grind
  · rename_i hge
    exact ⟨c, l, hc, h, ha, (Nat.max_eq_left (Nat.le_of_not_lt hge)).symm, fun x => Iff.rfl⟩

/-- A region has the hash that the current contents of the disk have. -/
def SameHash (env : DeltaEnv) (hreg : HashRegion) : Prop :=
  hreg.hash.take env.hashlen = (env.hashfunc (readBytes env.disk (sectobytes hreg.region.start)
      (sectobytes hreg.region.size))).take env.hashlen

/-- The disk has the contents that the hash of a region was made of, and no fixup modifies them. -/
def Unchanged (env : DeltaEnv) (orig : List Fixup) (hreg : HashRegion) : Prop :=
  SameHash env hreg ∧ ∀ p, sectobytes hreg.region.start ≤ p → p < sectobytes hreg.region.stop → ¬Modifies orig p

/-- A region can be read and hashed. -/
def Readable (env : DeltaEnv) (m : Prop) (hreg : HashRegion) : Prop :=
  m ∨ hreg.region.size ≤ env.hashblksize ∧ sectobytes hreg.region.stop ≤ env.diskSize

theorem hashAndCmp_disk {hreg : HashRegion}
    (hfix : hasfixup st.fixups hreg.region.start hreg.region.size = false) (hread : Readable env m hreg) :
    Yields m (hashAndCmp env st hreg) fun r => r.2.2 = st ∧ (r.1 = false → SameHash env hreg) := by
  unfold hashAndCmp
  apply Yields.bind (hashRange_disk hfix hread)
  intro r hr
  subst hr
  simp [SameHash]

theorem hashNew_given {hash : List Byte}
    (h : FixupsAt orig c st) (hnew : m ∨ env.newhashfile = false ∨ 0 < env.hashblksize) :
    Yields m (hashNew env st start size (some hash)) fun st' => FixupsAt orig c st' := by
  unfold hashNew
  split
  · rename_i hnew'
    have hgiven : Yields m (addToHashmap env st start size (some hash)) fun st' =>
        st'.fixups = st.fixups :=
      addToHashmap_given (hnew.imp_right fun hnew => hnew.resolve_left (by simp [hnew']))
    apply hgiven.imp
    intro st' hst'
    constructor
    · rw [hst']
      exact h.pending
    · rw [hst']
      exact h.empty
  · exact h

theorem compareRegion_scan {c : Nat} {d : Range} {hreg : HashRegion}
    (h : FixupsAt orig c st) (hc : c ≤ hreg.region.start) (hsize : 0 < hreg.region.size)
    (hread : Readable env m hreg) :
    Yields m (compareRegion env d hreg st) fun r =>
      FixupsAt orig c r.2 ∧ (r.1 = .same → Unchanged env orig hreg) := by
  unfold compareRegion
  split
  · split
    · exact ⟨h, fun hsame => by contradiction⟩
    · rename_i hfix
      have hfix : hasfixup st.fixups hreg.region.start hreg.region.size = false := by
        simpa using hfix
      apply Yields.bind (hashAndCmp_disk hfix hread)
      intro r hr
      obtain ⟨hst, hequal⟩ := hr
      rw [← hst] at h hfix
      apply Yields.bind
      · apply hashNew_given h
        exact hread.imp_right fun hread => Or.inr (Nat.lt_of_lt_of_le hsize hread.1)
      intro st' hst'
      refine ⟨hst', fun hsame => ⟨hequal ?_, ?_⟩⟩
      · by_contra hdiffers
        simp [hdiffers] at hsame
      · -- the region is behind sector `c`, where the list of fixups is complete
        intro p hlo hhi hm
        have hp : sectobytes c ≤ p := Nat.le_trans (sectobytes_le hc) hlo
        have hnot := not_modifies_of_hasfixup h.pending.sorted (sectobytes_le hc) hsize hfix p hlo
        rw [← sectobytes_add] at hnot
        exact hnot hhi (h.pending.kept p hp hm)
  · exact ⟨h, fun hsame => by contradiction⟩

theorem keepPart_scan {changed : Changed} (h : Scan orig c l out st) (hc : c ≤ start)
    (hsize : 0 < size) (hstop : start + size < 2 ^ 32) (hcan : CanHash env m orig (start + size)) :
    Yields m (keepPart env changed out st start size) fun r =>
      ∃ l', Scan orig (start + size) l' r.1 r.2 ∧ (∀ x, Covered l' x → Covered l x ∨ Has ⟨start, size⟩ x) ∧
        ∀ x, Covered l x ∨ Has ⟨start, size⟩ x → Covered l' x ∨ changed = .same ∧ Has ⟨start, size⟩ x := by
  have hkept : Yields m (keepRange env out st start size) fun r =>
      ∃ l', Scan orig (start + size) l' r.1 r.2 ∧ (∀ x, Covered l' x → Covered l x ∨ Has ⟨start, size⟩ x) ∧
        ∀ x, Covered l x ∨ Has ⟨start, size⟩ x → Covered l' x ∨ changed = .same ∧ Has ⟨start, size⟩ x := by
    apply (keepRange_scan h hc hsize hstop hcan).imp
    intro r hr
    obtain ⟨l', hscan', hcovered'⟩ := hr
    exact ⟨l', hscan', fun x hx => (hcovered' x).mp hx, fun x hx => Or.inl ((hcovered' x).mpr hx)⟩
  unfold keepPart
  cases changed with
  | same =>
    exact ⟨l, h.mono (by omega), fun x hx => Or.inl hx, fun x hx => hx.imp_right fun hx => ⟨rfl, hx⟩⟩
  | differs =>
    obtain ⟨l', hout, hbuilt, hcovered'⟩ := h.built.addToRange hc hsize hstop
    rw [← h.out_eq] at hout
    exact ⟨l', ⟨hout, hbuilt, h.fixups.mono (by omega)⟩, fun x hx => (hcovered' x).mp hx,
      fun x hx => Or.inl ((hcovered' x).mpr hx)⟩
  | gap => exact hkept
  | fixup => exact hkept

/-- What a region covers is put into the new list, or left out if the contents
    are the same. The scan goes on where the region ends. -/
theorem keepCovered_scan {c hstart hend : Nat} {changed : Changed} {ds l : List Range}
    (h : Scan orig c l out st) (ha : Ahead env m orig c ds)
    (hlow : ∀ d ∈ ds, hstart ≤ d.start) (hc : c ≤ hend) (hend32 : hend < 2 ^ 32) :
    Yields m (keepCovered env changed hstart hend ds out st) fun s =>
      ∃ c' l', c' ≤ hend ∧ Scan orig c' l' s.out s.st ∧ Ahead env m orig c' s.dranges ∧
        (∀ d ∈ s.dranges.head?, hend ≤ d.start) ∧
        (∀ x, Remains l' s.dranges x → Remains l ds x) ∧
        ∀ x, Remains l ds x → Remains l' s.dranges x ∨ changed = .same ∧ hstart ≤ x ∧ x < hend := by
  induction ds generalizing c l out st with
  | nil =>
    unfold keepCovered
    exact ⟨c, l, hc, h, ha, by simp, fun x hx => hx, fun x hx => Or.inl hx⟩
  | cons d next ih =>
    have hfits := ha.fits d mem_cons_self
    have hstart := hlow d mem_cons_self
    have hbehind := ha.behind d mem_cons_self
    unfold keepCovered
    rw [rangeEnd_eq hfits]
    split
    swap
    · rename_i hdone
      refine ⟨c, l, hc, h, ha, ?_, fun x hx => hx, fun x hx => Or.inl hx⟩
      simpa using hdone
    rename_i hlt
    dsimp only
    apply Yields.bind
    · exact yields_assert (Or.inr (by simpa using hstart))
    intro _ _
    by_cases hcross : hend < d.stop
    · -- the range crosses the end of the region and is split
      simp only [hcross, decide_true, if_true]
      have hcur : d.start + subU32 hend d.start = hend := by
        rw [subU32_of_le (Nat.le_of_lt hlt) hend32]
        omega
      rw [subU32_of_le (Nat.le_of_lt hcross) hfits]
      apply Yields.bind
      · exact yields_assert (Or.inr (by simp))
      intro _ _
      apply Yields.bind
      · apply keepPart_scan h hbehind
        · omega
        · omega
        · exact (ha.canHash d mem_cons_self).mono (by omega)
      intro r hr
      rw [hcur] at hr
      obtain ⟨l', hscan', hsub, hsup⟩ := hr
      unfold keepCovered
      simp only [Nat.lt_irrefl, if_false]
      refine ⟨hend, l', Nat.le_refl _, hscan', ha.cut hcross, by simp, ?_, ?_⟩
      · intro x hx
        simp only [Remains, covered_cons, Has, stop] at *
        grind
      · intro x hx
        simp only [Remains, covered_cons, Has, stop] at *
        grind
    · simp only [hcross, decide_false, Bool.false_eq_true, if_false]
      have hcur : d.start + subU32 d.stop d.start = d.stop := by
        have hle : d.start ≤ d.stop := Nat.le_add_right _ _
        rw [subU32_of_le hle hfits]
        exact Nat.add_sub_cancel' hle
      have hsize := ha.ascending.nonempty d mem_cons_self
      have hhas : ∀ x, Has ⟨d.start, subU32 d.stop d.start⟩ x ↔ d.Has x := by
        intro x
        simp only [Has, stop] at hcur ⊢
        rw [hcur]
      apply Yields.bind
      · exact yields_assert (Or.inr (by simpa using hcross))
      intro _ _
      apply Yields.bind
      · apply keepPart_scan h hbehind
        · unfold stop at hcur ⊢
          omega
        · rw [hcur]
          exact hfits
        · rw [hcur]
          exact ha.canHash d mem_cons_self
      intro r hr
      rw [hcur] at hr
      simp only [hhas] at hr
      obtain ⟨l₁, hscan₁, hsub₁, hsup₁⟩ := hr
      apply Yields.bind
      · exact yields_assert (Or.inr (by simpa using ha.tail.ascending.nonempty))
      intro _ _
      apply (ih hscan₁ ha.tail (fun e he => hlow e (mem_cons_of_mem _ he)) (by omega)).imp
      intro s hs
      obtain ⟨c', l', hc', hscan', ha', hhead, hsub, hsup⟩ := hs
      refine ⟨c', l', hc', hscan', ha', hhead, ?_, ?_⟩
      · intro x hx
        rcases hsub x hx with hx | hx
        · exact (hsub₁ x hx).imp_right fun hx => (covered_cons d next x).mpr (Or.inl hx)
        · exact Or.inr ((covered_cons d next x).mpr (Or.inr hx))
      · intro x hx
        rw [Remains, covered_cons, ← or_assoc] at hx
        rcases hx with hx | hx
        · rcases hsup₁ x hx with hx | hx
          · exact hsup x (Or.inl hx)
          · exact Or.inr ⟨hx.1, Nat.le_trans hstart hx.2.1, by have := hx.2.2; omega⟩
        · exact hsup x (Or.inr hx)

theorem deltaRegion_scan {c : Nat} {hreg : HashRegion} {s : DeltaState}
    (h : Scan orig c l s.out s.st) (ha : Ahead env m orig c s.dranges)
    (hc : c ≤ hreg.region.start) (hsize : 0 < hreg.region.size)
    (hstop : hreg.region.stop < 2 ^ 32) (hread : Readable env m hreg) :
    Yields m (deltaRegion env hreg s) fun s' =>
      ∃ c' l', c' ≤ hreg.region.stop ∧ Scan orig c' l' s'.out s'.st ∧ Ahead env m orig c' s'.dranges ∧
        (∀ x, Remains l' s'.dranges x → Remains l s.dranges x) ∧
        ∀ x, Remains l s.dranges x → Remains l' s'.dranges x ∨ hreg.region.Has x ∧ Unchanged env orig hreg := by
  have hle : hreg.region.start ≤ hreg.region.stop := Nat.le_add_right _ _
  unfold deltaRegion
  rw [rangeEnd_eq hstop]
  dsimp only
  apply Yields.bind (keepBefore_scan h ha hc)
  intro s₁ hs₁
  obtain ⟨c₁, l₁, hc₁, hscan₁, ha₁, hremains₁, hhead₁⟩ := hs₁
  have hdone : ∃ c' l', c' ≤ hreg.region.stop ∧ Scan orig c' l' s₁.out s₁.st ∧ Ahead env m orig c' s₁.dranges ∧
      (∀ x, Remains l' s₁.dranges x → Remains l s.dranges x) ∧
      ∀ x, Remains l s.dranges x → Remains l' s₁.dranges x ∨ hreg.region.Has x ∧ Unchanged env orig hreg :=
    ⟨c₁, l₁, Nat.le_trans hc₁ hle, hscan₁, ha₁, fun x hx => (hremains₁ x).mp hx,
      fun x hx => Or.inl ((hremains₁ x).mpr hx)⟩
  cases hds : s₁.dranges with
  | nil => exact hdone
  | cons d next =>
    rw [hds] at ha₁ hremains₁ hhead₁
    have hd : hreg.region.start < d.stop := hhead₁ d rfl
    dsimp only
    rw [rangeEnd_eq (ha₁.fits d mem_cons_self)]
    apply Yields.bind
    · exact yields_assert (Or.inr (by simpa using hd))
    intro _ _
    split
    · exact hdone
    rename_i hlt
    apply Yields.bind
    · exact yields_assert (Or.inr (by simpa using hlt))
    intro _ _
    apply Yields.bind (keepHead_scan hscan₁ ha₁ hc₁ hd)
    intro r₂ hr₂
    obtain ⟨c₂, l₂, hc₂, hscan₂, ha₂, hstart₂, hremains₂⟩ := hr₂
    apply Yields.bind (compareRegion_scan hscan₂.fixups hc₂ hsize hread)
    intro r₃ hr₃
    obtain ⟨hfixups₃, hsame⟩ := hr₃
    have hscan₃ : Scan orig c₂ l₂ r₂.2.1 r₃.2 := ⟨hscan₂.out_eq, hscan₂.built, hfixups₃⟩
    have hlow : ∀ e ∈ r₂.1 :: next, hreg.region.start ≤ e.start := by
      obtain ⟨-, hfirst, -⟩ := ascending_cons.mp ha₂.ascending
      have hle₂ : r₂.1.start ≤ r₂.1.stop := Nat.le_add_right _ _
      intro e he
      rcases mem_cons.mp he with rfl | he
      · omega
      · have := hfirst e he
        omega
    apply Yields.bind
    · apply yields_assert
      right
      have : hreg.region.start < hreg.region.stop := Nat.lt_add_of_pos_right hsize
      simp only [decide_eq_true_eq]
      omega
    intro _ _
    apply Yields.bind (keepCovered_scan hscan₃ ha₂ hlow (by omega) hstop)
    intro s₄ hs₄
    obtain ⟨c', l', hc', hscan', ha', hhead', hsub, hsup⟩ := hs₄
    apply Yields.bind
    · apply yields_assert
      right
      simpa [Option.all_eq_true] using hhead'
    intro _ _
    refine ⟨c', l', hc', hscan', ha', ?_, ?_⟩
    · intro x hx
      rw [← hremains₁, ← hremains₂]
      exact hsub x hx
    · intro x hx
      rw [← hremains₁, ← hremains₂] at hx
      exact (hsup x hx).imp_right fun hx => ⟨hx.2, hsame hx.1⟩

/-! ## Section 5: The whole scan -/

/-- Sector `x` may be left out: it is in a region that is unchanged. -/
def Omissible (env : DeltaEnv) (orig : List Fixup) (hregs : List HashRegion) (x : Nat) : Prop :=
  ∃ hreg ∈ hregs, hreg.region.Has x ∧ Unchanged env orig hreg

/-- The loop over the regions: whatever is allocated remains, unless it may be left out. -/
theorem deltaLoop_scan {c : Nat} {hregs : List HashRegion} {s : DeltaState}
    (h : Scan orig c l s.out s.st) (ha : Ahead env m orig c s.dranges)
    (hne : s.dranges ≠ []) (hregions : Ascending (hregs.map (·.region)))
    (hc : ∀ hreg ∈ hregs, c ≤ hreg.region.start) (hfits : ∀ hreg ∈ hregs, hreg.region.stop < 2 ^ 32)
    (hread : ∀ hreg ∈ hregs, Readable env m hreg) :
    Yields m (deltaLoop env hregs s) fun r =>
      ∃ c' l', Scan orig c' l' r.1.out r.1.st ∧ Ahead env m orig c' r.1.dranges ∧ (r.1.dranges = [] ∨ r.2 = []) ∧
        (∀ x, Remains l' r.1.dranges x → Remains l s.dranges x) ∧
        ∀ x, Remains l s.dranges x → Remains l' r.1.dranges x ∨ Omissible env orig hregs x := by
  induction hregs generalizing c l s with
  | nil =>
    unfold deltaLoop
    exact ⟨c, l, h, ha, Or.inr rfl, fun x hx => hx, fun x hx => Or.inl hx⟩
  | cons hreg hregs ih =>
    obtain ⟨hsize, hfirst, hrest⟩ := ascending_cons.mp hregions
    unfold deltaLoop
    apply Yields.bind
    · apply yields_assert
      right
      obtain ⟨d, next, hds⟩ := exists_cons_of_ne_nil hne
      have := ha.ascending.nonempty d (by simp [hds])
      simpa [hds] using this
    intro _ _
    apply Yields.bind (deltaRegion_scan h ha (hc hreg mem_cons_self) hsize
      (hfits hreg mem_cons_self) (hread hreg mem_cons_self))
    intro s₁ hs₁
    obtain ⟨c₁, l₁, hc₁, hscan₁, ha₁, hsub₁, hsup₁⟩ := hs₁
    have homit : ∀ x, hreg.region.Has x ∧ Unchanged env orig hreg → Omissible env orig (hreg :: hregs) x :=
      fun x hx => ⟨hreg, mem_cons_self, hx⟩
    split
    · rename_i hempty
      refine ⟨c₁, l₁, hscan₁, ha₁, Or.inl (by simpa using hempty), hsub₁, ?_⟩
      intro x hx
      exact (hsup₁ x hx).imp_right (homit x)
    · rename_i hempty
      have hloop := ih hscan₁ ha₁ (by simpa using hempty) hrest
        (fun hreg' hmem => Nat.le_trans hc₁ (hfirst _ (mem_map_of_mem hmem)))
        (fun hreg' hmem => hfits hreg' (mem_cons_of_mem _ hmem))
        (fun hreg' hmem => hread hreg' (mem_cons_of_mem _ hmem))
      apply hloop.imp
      intro r hr
      obtain ⟨c', l', hscan', ha', hend, hsub, hsup⟩ := hr
      refine ⟨c', l', hscan', ha', hend, fun x hx => hsub₁ x (hsub x hx), ?_⟩
      intro x hx
      rcases hsup₁ x hx with hx | hx
      · refine (hsup x hx).imp_right fun hx => ?_
        obtain ⟨hreg', hmem, hx⟩ := hx
        exact ⟨hreg', mem_cons_of_mem _ hmem, hx⟩
      · exact Or.inr (homit x hx)

/-- The ranges behind the last region are all put into the new list. -/
theorem keepRest_scan {c : Nat} {hregs : List HashRegion} {ds l : List Range}
    (h : Scan orig c l out st) (ha : Ahead env m orig c ds) (hend : ds = [] ∨ hregs = []) :
    Yields m (keepRest env hregs ds out st) fun r =>
      ∃ c' l', Scan orig c' l' r.1 r.2 ∧ ∀ x, Covered l' x ↔ Remains l ds x := by
  induction ds generalizing c l out st with
  | nil =>
    unfold keepRest
    exact ⟨c, l, h, fun x => by simp [Remains]⟩
  | cons d next ih =>
    have hregs : hregs = [] := hend.resolve_left (cons_ne_nil d next)
    unfold keepRest
    apply Yields.bind
    · exact yields_assert (Or.inr (by simp [hregs]))
    intro _ _
    apply Yields.bind (keepRange_scan h (ha.behind d mem_cons_self)
      (ha.ascending.nonempty d mem_cons_self) (ha.fits d mem_cons_self)
      (ha.canHash d mem_cons_self))
    intro r hr
    obtain ⟨l₁, hscan₁, hcovered₁⟩ := hr
    apply Yields.bind
    · exact yields_assert (Or.inr (by simpa using ha.tail.ascending.nonempty))
    intro _ _
    apply (ih hscan₁ ha.tail (Or.inr hregs)).imp
    intro r' hr'
    obtain ⟨c', l', hscan', hcovered'⟩ := hr'
    refine ⟨c', l', hscan', ?_⟩
    intro x
    rw [hcovered' x]
    simp only [Remains, hcovered₁, covered_cons]
    exact or_assoc

/-! ## Section 6: The delta -/

/-- The regions of a signature file, at their place on the disk. -/
def diskRegions (poffset : Nat) (hfile : Option HashInfo) : List HashRegion :=
  (hfile.getD emptyHashInfo).regions.map fun hreg =>
    { hreg with region := ⟨hreg.region.start + poffset, hreg.region.size⟩ }

/-- The environment that a signature file determines. -/
def fileEnv (input : DeltaInput) (hfile : Option HashInfo) : DeltaEnv :=
  deltaEnv input (hfile.getD emptyHashInfo)

/-- What a caller gives: sorted lists, and sector numbers of 32 bits. -/
structure DeltaArgs (input : DeltaInput) (D : List Range) (hfile : Option HashInfo)
    (fixups : List Fixup) : Prop where
  /-- The allocated ranges are sorted and disjoint. -/
  ranges : Ascending D
  rangesFit : ∀ d ∈ D, d.stop < 2 ^ 32
  /-- The regions of the signature are sorted and disjoint. -/
  regions : Ascending ((diskRegions input.poffset hfile).map (·.region))
  regionsFit : ∀ hreg ∈ diskRegions input.poffset hfile, hreg.region.stop < 2 ^ 32
  fixupsSorted : fixups.Pairwise fun fp fp' => fp.offset ≤ fp'.offset

/-- Nothing makes the computation fail: what is hashed can be read, in blocks
    of the size that the signature gives. -/
structure CanCompute (input : DeltaInput) (D : List Range) (hfile : Option HashInfo)
    (fixups : List Fixup) : Prop where
  nonempty : D ≠ []
  /-- The signature file is one. -/
  valid : ∀ hi ∈ hfile, hi.magic = HASH_MAGIC ∧ (hi.version = HASH_VERSION_1 ∨ hi.version = HASH_VERSION_2)
  /-- The regions can be hashed. -/
  regions : ∀ hreg ∈ diskRegions input.poffset hfile, hreg.region.size ≤ (fileEnv input hfile).hashblksize ∧
      sectobytes hreg.region.stop ≤ input.diskSize
  /-- The ranges can be hashed, if there is to be a new signature. -/
  newSignature : input.newhashfile = false ∨
    0 < (fileEnv input hfile).hashblksize ∧ (∀ d ∈ D, sectobytes d.stop ≤ input.diskSize) ∧ fixups = []

/-- What `ranges` must be for the allocated ranges `D` and the regions `H`. -/
structure IsDelta (env : DeltaEnv) (fixups : List Fixup) (D : List Range) (H : List HashRegion)
    (ranges : List Range) : Prop where
  /-- The ranges are sorted, and do not even touch. -/
  separated : Separated ranges
  subset : ∀ x, Covered ranges x → Covered D x
  /-- What is left out is in a region that has not changed, without a fixup. -/
  sound : ∀ x, Covered D x → ¬Covered ranges x → ∃ hreg ∈ H, hreg.region.Has x ∧ SameHash env hreg ∧
    ∀ p, sectobytes hreg.region.start ≤ p → p < sectobytes hreg.region.stop → ¬Modifies fixups p
  uncovered : ∀ x, Covered D x → (∀ hreg ∈ H, ¬hreg.region.Has x) → Covered ranges x
  changed : ∀ x, Covered D x → ∀ hreg ∈ H, hreg.region.Has x → ¬SameHash env hreg → Covered ranges x

theorem signature_yields {input : DeltaInput} {hfile : Option HashInfo}
    (hfits : ∀ hreg ∈ diskRegions input.poffset hfile, hreg.region.stop < 2 ^ 32)
    (hm : m ∨ (∀ hi ∈ hfile, hi.magic = HASH_MAGIC ∧ (hi.version = HASH_VERSION_1 ∨ hi.version = HASH_VERSION_2)) ∧
      ∀ hreg ∈ diskRegions input.poffset hfile, hreg.region.size ≤ (fileEnv input hfile).hashblksize) :
    Yields m (signature input.poffset hfile) fun hinfo =>
      deltaEnv input hinfo = fileEnv input hfile ∧ hinfo.regions = diskRegions input.poffset hfile := by
  unfold signature
  cases hfile with
  | none => exact ⟨rfl, rfl⟩
  | some hi =>
    unfold readhashinfo
    dsimp only
    split
    · rename_i hinvalid
      rcases hm with hm | hm
      · exact hm
      · obtain ⟨hmagic, hversion⟩ := hm.1 hi rfl
        exact absurd hinvalid (by simp [hmagic, hversion])
    · apply Yields.bind
      · apply yields_assert
        refine hm.imp_right fun hm => ?_
        have hsize := hm.2
        simp only [diskRegions, Option.getD_some, forall_mem_map] at hsize
        simpa [fileEnv, deltaEnv] using hsize
      intro _ _
      refine ⟨rfl, map_congr_left ?_⟩
      intro hreg hmem
      have hfit := hfits _ (mem_map_of_mem hmem)
      unfold stop at hfit
      rw [addU32_of_lt (by simp only at hfit; omega)]

theorem isDelta_of_scan {c : Nat} {D l : List Range} {hregs : List HashRegion}
    (hbuilt : Built c l) (hregions : Ascending (hregs.map (·.region))) (hsub : ∀ x, Covered l x → Covered D x)
    (hsup : ∀ x, Covered D x → Covered l x ∨ Omissible env orig hregs x) : IsDelta env orig D hregs l.reverse := by
  have hrev : ∀ x, Covered l.reverse x ↔ Covered l x := by
    intro x
    simp [Covered]
  constructor
  · exact hbuilt.separated
  · intro x hx
    exact hsub x ((hrev x).mp hx)
  · intro x hD hx
    obtain ⟨hreg, hmem, hhas, hsame, hfix⟩ := (hsup x hD).resolve_left fun h => hx ((hrev x).mpr h)
    exact ⟨hreg, hmem, hhas, hsame, hfix⟩
  · intro x hD hno
    rcases hsup x hD with hx | homit
    · exact (hrev x).mpr hx
    · obtain ⟨hreg, hmem, hhas, -⟩ := homit
      exact absurd hhas (hno hreg hmem)
  · intro x hD hreg hmem hhas hdiffers
    rcases hsup x hD with hx | homit
    · exact (hrev x).mpr hx
    · obtain ⟨hreg', hmem', hhas', hsame, -⟩ := homit
      rw [hregions.has_unique hmem hmem' hhas hhas'] at hdiffers
      exact absurd hsame hdiffers

theorem hashmapComputeDelta_yields {input : DeltaInput} {D : List Range}
    {hfile : Option HashInfo} {fixups : List Fixup} (h : DeltaArgs input D hfile fixups) :
    Yields (¬CanCompute input D hfile fixups) (hashmapComputeDelta input D hfile fixups) fun r =>
      IsDelta (fileEnv input hfile) fixups D (diskRegions input.poffset hfile) r.1 := by
  have hcan : ¬CanCompute input D hfile fixups ∨ CanCompute input D hfile fixups := (Classical.em _).symm
  unfold hashmapComputeDelta
  apply Yields.bind
  · apply yields_assert
    exact hcan.imp_right fun hcan => by simpa using hcan.nonempty
  intro _ hne
  have hne : D ≠ [] := by simpa using hne
  apply Yields.bind (signature_yields h.regionsFit
    (hcan.imp_right fun hcan => ⟨hcan.valid, fun hreg hmem => (hcan.regions hreg hmem).1⟩))
  intro hinfo hhinfo
  obtain ⟨henv, hhregs⟩ := hhinfo
  dsimp only
  rw [henv, hhregs]
  have hfixups : FixupsAt fixups 0 ⟨if input.newhashfile then savefixups fixups else fixups, [], none⟩ := by
    have hzero : sectobytes 0 = 0 := Nat.zero_mul _
    split
    · constructor
      · rw [hzero]
        exact pending_savefixups fixups
      · intro hnone
        subst hnone
        simp [savefixups]
    · constructor
      · rw [hzero]
        exact pending_sorted h.fixupsSorted
      · exact id
  apply Yields.bind
  · apply deltaLoop_scan (c := 0) (l := []) ⟨rfl, ⟨by simp, by simp, by simp⟩, hfixups⟩
    · exact ⟨h.ranges, by simp, h.rangesFit, fun d hd => hcan.imp_right fun hcan =>
        hcan.newSignature.imp_right fun hnew => ⟨hnew.1, hnew.2.1 d hd, hnew.2.2⟩⟩
    · exact hne
    · exact h.regions
    · simp
    · exact h.regionsFit
    · exact fun hreg hmem => hcan.imp_right fun hcan => hcan.regions hreg hmem
  intro r hr
  obtain ⟨c, l, hscan, hahead, hend, hsub, hsup⟩ := hr
  apply Yields.bind (keepRest_scan hscan hahead hend)
  intro r' hr'
  obtain ⟨c', l', hscan', hcovered'⟩ := hr'
  have hdelta : IsDelta (fileEnv input hfile) fixups D (diskRegions input.poffset hfile) l'.reverse := by
    apply isDelta_of_scan hscan'.built h.regions
    · intro x hx
      have := hsub x ((hcovered' x).mp hx)
      simpa [Remains] using this
    · intro x hx
      rw [hcovered']
      exact hsup x (Or.inr hx)
  have hout : r'.1.reverse.tail = l'.reverse := by
    simp [hscan'.out_eq]
  rw [← hout] at hdelta
  split
  · rename_i hnew
    apply Yields.bind
    · apply yields_assert
      refine hcan.imp_right fun hcan => ?_
      have hnone := (hcan.newSignature.resolve_left (by simp [hnew])).2.2
      simpa using hscan'.fixups.empty hnone
    intro _ _
    exact hdelta
  · exact hdelta

/-- The delta of allocated ranges and a signature: for sorted lists, whatever the disk has, a returned list
    is the delta; and a list is returned if what has to be hashed can be read. -/
theorem hashmapComputeDelta_isDelta (input : DeltaInput) (D : List Range)
    (hfile : Option HashInfo) (fixups : List Fixup) (h : DeltaArgs input D hfile fixups) :
    (∀ ranges newhash, hashmapComputeDelta input D hfile fixups = .ok (ranges, newhash) →
      IsDelta (fileEnv input hfile) fixups D (diskRegions input.poffset hfile) ranges) ∧
    (CanCompute input D hfile fixups →
      ∃ ranges newhash, hashmapComputeDelta input D hfile fixups = .ok (ranges, newhash)) := by
  have hyields := hashmapComputeDelta_yields h
  constructor
  · intro ranges newhash hok
    exact hyields.of_ok hok
  · intro hcan
    obtain ⟨r, hok, -⟩ := hyields.returns (not_not_intro hcan)
    exact ⟨r.1, r.2, hok⟩

/-- A disk of three sectors of zeros, of which the second is in a signature. -/
def zeroDisk : DeltaInput where
  disk := fun _ => 0
  diskSize := 3 * SECSIZE
  md5 := fun _ => [191, 97, 158, 172, 12, 223, 63, 104, 212, 150, 234, 147, 68, 19, 126, 139]
  sha1 := fun _ => [92, 62, 184, 0, 102, 66, 0, 2, 188, 61, 204, 124, 164, 171, 110, 250, 215, 237, 74, 229]
  hashFree := false
  poffset := 0
  newhashfile := false

/-- The signature of the second sector. -/
def zeroSignature : HashInfo :=
  { emptyHashInfo with
    regions := [{ region := ⟨1, 1⟩, chunkno := 0, hash := zeroDisk.sha1 (List.replicate 512 0) }] }

theorem hashmapComputeDelta_isDelta_zeros : ∃ ranges newhash,
    hashmapComputeDelta zeroDisk [⟨0, 3⟩] (some zeroSignature) [] = .ok (ranges, newhash) ∧
      IsDelta (fileEnv zeroDisk (some zeroSignature)) [] [⟨0, 3⟩] (diskRegions 0 (some zeroSignature)) ranges := by
  have hargs : DeltaArgs zeroDisk [⟨0, 3⟩] (some zeroSignature) [] := by
    constructor
    · exact ⟨by simp, by simp⟩
    · simp [stop]
    · exact ⟨by decide, pairwise_singleton _ _⟩
    · decide
    · exact List.Pairwise.nil
  have hdelta := hashmapComputeDelta_isDelta zeroDisk [⟨0, 3⟩] (some zeroSignature) [] hargs
  obtain ⟨ranges, newhash, hok⟩ := hdelta.2
    ⟨by simp, by decide, by decide, Or.inl rfl⟩
  exact ⟨ranges, newhash, hok, hdelta.1 ranges newhash hok⟩

end Emulab.Imagezip
