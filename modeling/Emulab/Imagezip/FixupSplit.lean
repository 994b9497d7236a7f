import Emulab.Imagezip.Fixups

/-! # Applying fixups buffer by buffer

  The image is compressed in pieces, and the fixups are applied to each piece when
  it has been read. A fixup that goes on behind the piece is applied as far as the
  piece has data; the list keeps what is left of it, in its place.
-/

namespace Emulab.Imagezip

open MachineInt List Option

/-! ## Section 1: One buffer after the other -/

/-- Whether `r1` is greater than `r2`: by their sectors, then by their offsets. -/
def cmpfixups (r1 r2 : Fixup) : Bool :=
  let start (r : Fixup) : Nat := bytestosec r.offset % 2 ^ 32
  start r2 < start r1 || (start r1 = start r2 && r2.offset < r1.offset)

/-- Apply fixups to consecutive buffers, the first of which is at `offset`. -/
def applyBuffers (offset : Nat) : List (List Byte) → List Fixup →
    Except Failure (List Byte × List Fixup × List Reloc)
  | [], fixups => .ok ([], fixups, [])
  | buffer :: rest, fixups => do
    let (data, fixups, relocs) ← applyfixups offset buffer.length fixups buffer
    let (data', fixups', relocs') ← applyBuffers (offset + buffer.length) rest fixups
    return (data ++ data', fixups', relocs ++ relocs')

/-! ## Section 2: What the fixups are for -/

/-- The byte at `p` when the fixups have been applied one after the other. -/
def byteAt : List Fixup → Nat → Byte → Byte
  | [], _, b => b
  | fp :: rest, p, b =>
    byteAt rest p (if fp.offset ≤ p ∧ p < fp.offset + fp.size then fp.data.getD (p - fp.offset) 0 else b)

/-- The whole image with all fixups applied to it. -/
def patched (offset : Nat) (fixups : List Fixup) (image : List Byte) : List Byte :=
  image.mapIdx fun i b => byteAt fixups (offset + i) b

/-- The relocation that a fixup generates. -/
def Fixup.reloc (fp : Fixup) : Option Reloc :=
  if fp.reloctype ≠ RELOC_NONE then some ⟨fp.offset - fp.poffset, fp.size, fp.reloctype⟩ else none

structure Fixup.IsData (fp : Fixup) : Prop where
  nofunc : fp.func = none
  /-- There is as much data as is replaced. -/
  length : fp.data.length = fp.size

/-- The fixup is in the bytes from `lo` up to `hi`. -/
structure Fixup.Inside (fp : Fixup) (lo hi : Nat) : Prop where
  lower : lo ≤ fp.offset
  begins : fp.offset < hi
  upper : fp.offset + fp.size ≤ hi

/-- The fixup does not go on across byte `c`. -/
def Fixup.Clear (fp : Fixup) (c : Nat) : Prop := c ≤ fp.offset ∨ fp.offset + fp.size ≤ c

/-- What is left of a fixup from byte `c` on. -/
def Fixup.cut (c : Nat) (fp : Fixup) : Option Fixup :=
  if c ≤ fp.offset then some fp
  else if fp.offset + fp.size ≤ c then none
  else some { fp with
    offset := c, size := fp.offset + fp.size - c, data := fp.data.drop (c - fp.offset) }

/-! ## Section 3: One buffer -/

/-- Behind `c`, what is left of the fixups does the same. -/
theorem byteAt_cut {c p : Nat} (hp : c ≤ p) (fixups : List Fixup) (b : Byte) :
    byteAt (fixups.filterMap (Fixup.cut c)) p b = byteAt fixups p b := by
  induction fixups generalizing b with
  | nil => rfl
  | cons fp rest ih =>
    by_cases hbehind : c ≤ fp.offset
    · rw [filterMap_cons_some (show fp.cut c = some fp from if_pos hbehind)]
      exact ih _
    by_cases hdone : fp.offset + fp.size ≤ c
    · have hcut : fp.cut c = none := by
        unfold Fixup.cut
        rw [if_neg hbehind, if_pos hdone]
      rw [filterMap_cons_none hcut, ih, byteAt, if_neg (by omega)]
    · have hcut : fp.cut c = some { fp with
          offset := c, size := fp.offset + fp.size - c, data := fp.data.drop (c - fp.offset) } := by
        unfold Fixup.cut
        rw [if_neg hbehind, if_neg hdone]
      rw [filterMap_cons_some hcut]
      show byteAt (rest.filterMap (Fixup.cut c)) p (if c ≤ p ∧ p < c + (fp.offset + fp.size - c) then
        (fp.data.drop (c - fp.offset)).getD (p - c) 0 else b) = _
      rw [ih, byteAt]
      congr 1
      by_cases hin : p < fp.offset + fp.size
      · rw [if_pos (by omega), if_pos (by omega), getD_eq_getElem?_getD, List.getElem?_drop, getD_eq_getElem?_getD]
        congr 2
        omega
      · rw [if_neg (by omega), if_neg (by omega)]

theorem byteAt_of_lt {p : Nat} {fixups : List Fixup} (h : ∀ fp ∈ fixups, p < fp.offset) (b : Byte) :
    byteAt fixups p b = b := by
  induction fixups generalizing b with
  | nil => rfl
  | cons fp rest ih =>
    have hfp := h fp mem_cons_self
    rw [byteAt, if_neg (by omega)]
    exact ih (fun fp' hfp' => h fp' (mem_cons_of_mem _ hfp')) b

/-- Overwriting replaces some of the bytes. -/
theorem getElem?_overwrite {data new : List Byte} {coff : Nat} (h : coff + new.length ≤ data.length)
    (i : Nat) : (overwrite data new coff)[i]? =
      if coff ≤ i ∧ i < coff + new.length then new[i - coff]? else data[i]? := by
  unfold overwrite
  rw [append_assoc, List.getElem?_append, length_take_of_le (by omega)]
  split
  · rw [if_neg (by omega), List.getElem?_take_of_lt (by assumption)]
  · rw [List.getElem?_append]
    split
    · rw [if_pos (by omega)]
    · rw [if_neg (by omega), List.getElem?_drop]
      congr 1
      omega

theorem length_overwrite {data new : List Byte} {coff : Nat} (h : coff + new.length ≤ data.length) :
    (overwrite data new coff).length = data.length := by
  unfold overwrite
  rw [length_append, length_append, length_take_of_le (by omega), length_drop]
  omega

theorem patched_overwrite {offset : Nat} {fp : Fixup} {data : List Byte} (hdata : fp.data.length = fp.size)
    (hlo : offset ≤ fp.offset) (hhi : fp.offset < offset + data.length) (rest : List Fixup) :
    patched offset rest (overwrite data (fp.data.take (offset + data.length - fp.offset)) (fp.offset - offset)) =
      patched offset (fp :: rest) data := by
  have hlen : (fp.data.take (offset + data.length - fp.offset)).length =
      min (offset + data.length - fp.offset) fp.size := by
    rw [length_take, hdata]
  have hfits : fp.offset - offset + (fp.data.take (offset + data.length - fp.offset)).length ≤ data.length := by
    omega
  apply ext_getElem?
  intro i
  unfold patched
  rw [List.getElem?_mapIdx, List.getElem?_mapIdx, getElem?_overwrite hfits]
  by_cases hi : i < data.length
  · rw [List.getElem?_eq_getElem hi]
    show _ = some (byteAt (fp :: rest) (offset + i) data[i])
    rw [byteAt]
    by_cases hin : fp.offset ≤ offset + i ∧ offset + i < fp.offset + fp.size
    · rw [if_pos (by omega), if_pos hin, List.getElem?_take_of_lt (by omega), getD_eq_getElem?_getD,
        show offset + i - fp.offset = i - (fp.offset - offset) by omega,
        List.getElem?_eq_getElem (by omega)]
      rfl
    · rw [if_neg (by omega), if_neg hin]
      rfl
  · rw [if_neg (by omega), List.getElem?_eq_none (by omega : data.length ≤ i)]
    rfl

theorem filterMap_cut_eq_self {c : Nat} {fixups : List Fixup} (h : ∀ fp ∈ fixups, c ≤ fp.offset) :
    fixups.filterMap (Fixup.cut c) = fixups := by
  induction fixups with
  | nil => rfl
  | cons fp rest ih =>
    rw [filterMap_cons_some (show fp.cut c = some fp from if_pos (h fp mem_cons_self)),
      ih fun fp' hfp' => h fp' (mem_cons_of_mem _ hfp')]

/-- The relocations of the fixups that begin before `c`. -/
def relocsBefore (c : Nat) (fixups : List Fixup) : List Reloc :=
  (fixups.filter fun fp => fp.offset < c).filterMap Fixup.reloc

/-- What one call does to its buffer, to the list and to the relocations. -/
theorem applyfixups_spec {offset : Nat} {fixups : List Fixup} {data : List Byte}
    (hsize : data.length < 2 ^ 32) (hsorted : fixups.Pairwise fun fp fp' => fp.offset ≤ fp'.offset)
    (hdata : ∀ fp ∈ fixups, fp.IsData) (hlo : ∀ fp ∈ fixups, offset ≤ fp.offset)
    (hclear : ∀ fp ∈ fixups, fp.reloctype ≠ RELOC_NONE → fp.Clear (offset + data.length)) :
    applyfixups offset data.length fixups data =
      .ok (patched offset fixups data, fixups.filterMap (Fixup.cut (offset + data.length)),
        relocsBefore (offset + data.length) fixups) := by
  induction fixups generalizing data with
  | nil =>
    have hsame : patched offset [] data = data := mapIdx_eq_iff.mpr fun i => by simp [byteAt]
    unfold applyfixups
    rw [hsame]
    rfl
  | cons fp rest ih =>
    obtain ⟨hfirst, hrest⟩ := pairwise_cons.mp hsorted
    have hfp := hdata fp mem_cons_self
    have hoff := hlo fp mem_cons_self
    unfold applyfixups
    rw [decide_eq_true hoff, assert_true, bind_of_ok rfl]
    by_cases hbehind : offset + data.length ≤ fp.offset
    · -- all fixups are behind the buffer
      have hall : ∀ fp' ∈ fp :: rest, offset + data.length ≤ fp'.offset := by
        intro fp' hfp'
        rcases mem_cons.mp hfp' with rfl | hfp'
        · exact hbehind
        · exact hbehind.trans (hfirst fp' hfp')
      have hsame : patched offset (fp :: rest) data = data := by
        refine mapIdx_eq_iff.mpr fun i => ?_
        by_cases hi : i < data.length
        · rw [List.getElem?_eq_getElem hi, map_some, byteAt_of_lt fun fp' hfp' => by have := hall fp' hfp'; omega]
        · rw [List.getElem?_eq_none (by omega), map_none]
      have hcut : (fp :: rest).filterMap (Fixup.cut (offset + data.length)) = fp :: rest :=
        filterMap_cut_eq_self hall
      have hnone : relocsBefore (offset + data.length) (fp :: rest) = [] := by
        unfold relocsBefore
        rw [filter_eq_nil_iff.mpr fun fp' hfp' => by simpa using hall fp' hfp']
        rfl
      rw [if_pos hbehind, hsame, hcut, hnone]
    · -- the fixup begins in the buffer
      have hmem : ∀ fp' ∈ rest, fp' ∈ fp :: rest := fun fp' hfp' => mem_cons_of_mem _ hfp'
      have hclen : (if decide (offset + data.length < fp.offset + fp.size) = true then
          (offset + data.length - fp.offset) % 2 ^ 32 else fp.size % 2 ^ 32) =
          min (offset + data.length - fp.offset) fp.size := by
        split
        · rename_i hlt
          have := of_decide_eq_true hlt
          rw [Nat.mod_eq_of_lt (by omega), Nat.min_eq_left (by omega)]
        · rename_i hge
          rw [decide_eq_true_eq] at hge
          rw [Nat.mod_eq_of_lt (by omega), Nat.min_eq_right (by omega)]
      have hnone : (!decide (offset + data.length < fp.offset + fp.size) || fp.reloctype = RELOC_NONE) =
          true := by
        rw [Bool.or_eq_true, Bool.not_eq_true', decide_eq_false_iff_not, decide_eq_true_eq]
        by_cases hreloc : fp.reloctype = RELOC_NONE
        · exact Or.inr hreloc
        · have hclear' := hclear fp mem_cons_self hreloc
          unfold Fixup.Clear at hclear'
          exact Or.inl (by omega)
      have hcoff : (fp.offset - offset) % 2 ^ 32 = fp.offset - offset := Nat.mod_eq_of_lt (by omega)
      have htake : fp.data.take (min (offset + data.length - fp.offset) fp.size) =
          fp.data.take (offset + data.length - fp.offset) := by
        rw [← hfp.length, ← take_take, take_length]
      have hfits : fp.offset - offset + (fp.data.take (offset + data.length - fp.offset)).length ≤ data.length := by
        rw [length_take]
        omega
      have hlen := length_overwrite hfits
      have hbuffer := @ih (overwrite data (fp.data.take (offset + data.length - fp.offset)) (fp.offset - offset))
        (by rw [hlen]; exact hsize) hrest (fun fp' hfp' => hdata fp' (hmem fp' hfp'))
        (fun fp' hfp' => hlo fp' (hmem fp' hfp')) (by
          rw [hlen]
          exact fun fp' hfp' => hclear fp' (hmem fp' hfp'))
      rw [hlen, patched_overwrite hfp.length hoff (by omega)] at hbuffer
      have hrelocs : relocsBefore (offset + data.length) (fp :: rest) =
          (if fp.reloctype ≠ RELOC_NONE then [⟨fp.offset - fp.poffset, fp.size, fp.reloctype⟩] else []) ++
            relocsBefore (offset + data.length) rest := by
        unfold relocsBefore
        rw [filter_cons_of_pos (by simpa using hbehind), filterMap_cons]
        unfold Fixup.reloc
        split <;> rename_i heq <;> split at heq <;> simp_all
      rw [if_neg hbehind]
      dsimp only
      rw [hclen, hcoff, hnone, assert_true, bind_of_ok rfl, decide_eq_true (by omega), assert_true,
        bind_of_ok rfl, decide_eq_true (by omega), assert_true, bind_of_ok rfl, hfp.nofunc]
      dsimp only
      rw [htake, hbuffer, bind_of_ok rfl, hrelocs]
      dsimp only
      by_cases hdone : fp.offset + fp.size ≤ offset + data.length
      · have hcut : fp.cut (offset + data.length) = none := by
          unfold Fixup.cut
          rw [if_neg hbehind, if_pos hdone]
        rw [if_neg (by omega), filterMap_cons_none hcut]
      · have hcut : fp.cut (offset + data.length) = some { fp with
            offset := fp.offset + min (offset + data.length - fp.offset) fp.size
            size := fp.size - min (offset + data.length - fp.offset) fp.size
            data := fp.data.drop (min (offset + data.length - fp.offset) fp.size) } := by
          unfold Fixup.cut
          rw [if_neg hbehind, if_neg hdone, Nat.min_eq_left (by omega),
            show fp.offset + (offset + data.length - fp.offset) = offset + data.length by omega,
            show fp.offset + fp.size - (offset + data.length) = fp.size - (offset + data.length - fp.offset) by
              omega]
        rw [if_pos (by omega), filterMap_cons_some hcut, hfp.nofunc]

/-! ## Section 4: All buffers -/

/-- The relocations of the fixups that begin in the buffer, and those of what is left. -/
theorem relocsBefore_append {c : Nat} {fixups : List Fixup}
    (hsorted : fixups.Pairwise fun fp fp' => fp.offset ≤ fp'.offset)
    (hclear : ∀ fp ∈ fixups, fp.reloctype ≠ RELOC_NONE → fp.Clear c) :
    relocsBefore c fixups ++ (fixups.filterMap (Fixup.cut c)).filterMap Fixup.reloc =
      fixups.filterMap Fixup.reloc := by
  induction fixups with
  | nil => rfl
  | cons fp rest ih =>
    obtain ⟨hfirst, hrest⟩ := pairwise_cons.mp hsorted
    have ih := ih hrest fun fp' hfp' => hclear fp' (mem_cons_of_mem _ hfp')
    by_cases hbehind : c ≤ fp.offset
    · have hall : ∀ fp' ∈ fp :: rest, c ≤ fp'.offset := by
        intro fp' hfp'
        rcases mem_cons.mp hfp' with rfl | hfp'
        · exact hbehind
        · exact hbehind.trans (hfirst fp' hfp')
      unfold relocsBefore
      rw [filterMap_cut_eq_self hall, filter_eq_nil_iff.mpr fun fp' hfp' => by simpa using hall fp' hfp']
      rfl
    · -- what is left of this fixup generates no relocation
      have hleft : ((fp.cut c).bind Fixup.reloc) = none := by
        unfold Fixup.cut
        rw [if_neg hbehind]
        split
        · rfl
        · rename_i hmore
          have hnone : fp.reloctype = RELOC_NONE := by
            by_contra hreloc
            have hclear' := hclear fp mem_cons_self hreloc
            unfold Fixup.Clear at hclear'
            omega
          exact if_neg fun h => h hnone
      have hcut : ((fp :: rest).filterMap (Fixup.cut c)).filterMap Fixup.reloc =
          (rest.filterMap (Fixup.cut c)).filterMap Fixup.reloc := by
        rw [filterMap_filterMap, filterMap_filterMap]
        exact filterMap_cons_none hleft
      have hfilter : relocsBefore c (fp :: rest) = (fp.reloc).toList ++ relocsBefore c rest := by
        unfold relocsBefore
        rw [filter_cons_of_pos (by simpa using hbehind), filterMap_cons]
        cases fp.reloc <;> rfl
      rw [hcut, hfilter, append_assoc, ih, filterMap_cons]
      cases fp.reloc <;> rfl

theorem Fixup.IsData.cut {fp fp' : Fixup} {c : Nat} (h : fp.IsData) (hcut : fp.cut c = some fp') : fp'.IsData := by
  unfold Fixup.cut at hcut
  split at hcut
  · obtain rfl := some.inj hcut
    exact h
  split at hcut
  · simp at hcut
  · obtain rfl := some.inj hcut
    constructor
    · exact h.nofunc
    · simp only [length_drop, h.length]
      omega

theorem Fixup.Inside.cut {fp fp' : Fixup} {lo hi c : Nat} (h : fp.Inside lo hi)
    (hcut : fp.cut c = some fp') : fp'.Inside c hi := by
  obtain ⟨hlower, hbegins, hupper⟩ := h
  unfold Fixup.cut at hcut
  split at hcut
  · rename_i hle
    obtain rfl := some.inj hcut
    exact ⟨hle, hbegins, hupper⟩
  split at hcut
  · simp at hcut
  · obtain rfl := some.inj hcut
    constructor <;> dsimp only <;> omega

theorem Fixup.Clear.cut {fp fp' : Fixup} {c : Nat} (h : fp.Clear c) (hcut : fp.cut c = some fp') : fp' = fp := by
  unfold Fixup.Clear at h
  unfold Fixup.cut at hcut
  split at hcut
  · exact (some.inj hcut).symm
  split at hcut
  · simp at hcut
  · omega

theorem Fixup.offset_cut {c : Nat} {fp fp' : Fixup} (h : fp.cut c = some fp') : fp'.offset = max c fp.offset := by
  unfold Fixup.cut at h
  split at h
  · rename_i hle
    rw [← some.inj h, Nat.max_eq_right hle]
  split at h
  · simp at h
  · rw [← some.inj h]
    exact (Nat.max_eq_left (by omega : fp.offset ≤ c)).symm

theorem Fixup.reloctype_cut {c : Nat} {fp fp' : Fixup} (h : fp.cut c = some fp') :
    fp'.reloctype = fp.reloctype := by
  unfold Fixup.cut at h
  split at h
  · rw [some.inj h]
  split at h
  · simp at h
  · rw [← some.inj h]

theorem patched_append (offset : Nat) (fixups : List Fixup) (buffer rest : List Byte) :
    patched offset fixups (buffer ++ rest) = patched offset fixups buffer ++
      patched (offset + buffer.length) (fixups.filterMap (Fixup.cut (offset + buffer.length))) rest := by
  unfold patched
  rw [mapIdx_append]
  congr 1
  apply ext_getElem?
  intro i
  rw [List.getElem?_mapIdx, List.getElem?_mapIdx]
  congr 1
  funext b
  rw [byteAt_cut (by omega), Nat.add_assoc, Nat.add_comm buffer.length]

/-- What the calls do to the whole image, when the fixups are in the order of their offsets. -/
theorem applyBuffers_spec {offset : Nat} {buffers : List (List Byte)} {fixups : List Fixup}
    (hsize : ∀ buffer ∈ buffers, buffer.length < 2 ^ 32)
    (hsorted : fixups.Pairwise fun fp fp' => fp.offset ≤ fp'.offset) (hdata : ∀ fp ∈ fixups, fp.IsData)
    (hin : ∀ fp ∈ fixups, fp.Inside offset (offset + buffers.flatten.length))
    (hclear : ∀ fp ∈ fixups, fp.reloctype ≠ RELOC_NONE →
      ∀ done, done <+: buffers → fp.Clear (offset + done.flatten.length)) :
    applyBuffers offset buffers fixups =
      .ok (patched offset fixups buffers.flatten, [], fixups.filterMap Fixup.reloc) := by
  induction buffers generalizing offset fixups with
  | nil =>
    -- no fixup is inside of nothing
    have hnil : fixups = [] := by
      refine eq_nil_iff_forall_not_mem.mpr fun fp hfp => ?_
      obtain ⟨hlower, hbegins, -⟩ := hin fp hfp
      rw [flatten_nil, length_nil] at hbegins
      omega
    rw [hnil]
    rfl
  | cons buffer rest ih =>
    have hfirst : ∀ fp ∈ fixups, fp.reloctype ≠ RELOC_NONE → fp.Clear (offset + buffer.length) := by
      intro fp hfp hreloc
      have h := hclear fp hfp hreloc [buffer] (cons_prefix_cons.mpr ⟨rfl, nil_prefix⟩)
      rwa [flatten_singleton] at h
    have hcutmem : ∀ fp' ∈ fixups.filterMap (Fixup.cut (offset + buffer.length)), ∃ fp ∈ fixups,
        fp.cut (offset + buffer.length) = some fp' := fun fp' hfp' => mem_filterMap.mp hfp'
    have hrest := @ih (offset + buffer.length) (fixups.filterMap (Fixup.cut (offset + buffer.length)))
      (fun b hb => hsize b (mem_cons_of_mem _ hb))
      (pairwise_filterMap.mpr (hsorted.imp fun hle fp₁ h₁ fp₂ h₂ => by
        rw [Fixup.offset_cut h₁, Fixup.offset_cut h₂]
        exact max_le_max_left _ hle))
      (fun fp' hfp' => by
        obtain ⟨fp, hfp, hcut⟩ := hcutmem fp' hfp'
        exact (hdata fp hfp).cut hcut)
      (fun fp' hfp' => by
        obtain ⟨fp, hfp, hcut⟩ := hcutmem fp' hfp'
        have h := (hin fp hfp).cut hcut
        rwa [flatten_cons, length_append, ← Nat.add_assoc] at h)
      (fun fp' hfp' hreloc done hdone => by
        obtain ⟨fp, hfp, hcut⟩ := hcutmem fp' hfp'
        rw [Fixup.reloctype_cut hcut] at hreloc
        have h := hclear fp hfp hreloc (buffer :: done) (cons_prefix_cons.mpr ⟨rfl, hdone⟩)
        rw [(hfirst fp hfp hreloc).cut hcut]
        rwa [flatten_cons, length_append, ← Nat.add_assoc] at h)
    have hbuffer := applyfixups_spec (hsize buffer mem_cons_self) hsorted hdata
      (fun fp hfp => (hin fp hfp).lower) hfirst
    unfold applyBuffers
    rw [bind_of_ok hbuffer]
    dsimp only
    rw [bind_of_ok hrest]
    dsimp only
    rw [relocsBefore_append hsorted hfirst, ← patched_append, ← flatten_cons]
    rfl

theorem offset_le_of_cmpfixups {fp fp' : Fixup} (hfp : fp.offset < 2 ^ 41) (hfp' : fp'.offset < 2 ^ 41)
    (h : cmpfixups fp fp' = false) : fp.offset ≤ fp'.offset := by
  unfold cmpfixups bytestosec SECSIZE at h
  simp only [Bool.or_eq_false_iff, Bool.and_eq_false_iff, decide_eq_false_iff_not] at h
  omega

/-- The fixups are data fixups inside the image, sorted by `cmpfixups`. -/
structure Applicable (offset : Nat) (image : List Byte) (fixups : List Fixup) : Prop where
  /-- No fixup is greater than one that comes later. -/
  sorted : fixups.Pairwise fun fp fp' => cmpfixups fp fp' = false
  data : ∀ fp ∈ fixups, fp.IsData
  inside : ∀ fp ∈ fixups, fp.Inside offset (offset + image.length)

end Emulab.Imagezip
