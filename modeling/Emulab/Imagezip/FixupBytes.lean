import Emulab.Imagezip.FixupSplit
import Emulab.Imagezip.Skips

/-! # Fixups on the blocks of a scan

  While signatures are computed, the copied fixups are applied to one block
  after the other, and only to blocks that are hashed. Applying them either
  gives the bytes that the whole list gives, and leaves what is behind the
  block, or it leaves a fixup that begins before the end of the block. Such
  a fixup is never removed from the list again.
-/

namespace Emulab.Imagezip

open MachineInt List Option

/-! ## Section 1: What a fixup writes -/

/-- The fixups that imagezip makes: replacements, and zeroing. -/
def Fixup.IsMade (fp : Fixup) : Prop := fp.IsData ∨ fp.func = some zerofixup

/-- The byte that a fixup puts at `p`, in place of `b`. -/
def Fixup.value (fp : Fixup) (p : Nat) (b : Byte) : Byte :=
  match fp.func with
  | none => fp.data.getD (p - fp.offset) 0
  | some func => (func [b] fp.data).headD b

/-- The byte at `p` when all fixups have been applied, one after the other. -/
def fixedByte : List Fixup → Nat → Byte → Byte
  | [], _, b => b
  | fp :: rest, p, b =>
    fixedByte rest p (if fp.offset ≤ p ∧ p < fp.offset + fp.size then fp.value p b else b)

/-- The bytes from `offset` on when all fixups have been applied. -/
def fixedBytes (offset : Nat) (fixups : List Fixup) (data : List Byte) : List Byte :=
  data.mapIdx fun i b => fixedByte fixups (offset + i) b

/-- What is left of a fixup from byte `c` on. The argument of a function stays as it is. -/
def Fixup.after (c : Nat) (fp : Fixup) : Option Fixup :=
  if c ≤ fp.offset then some fp
  else if fp.offset + fp.size ≤ c then none
  else some { fp with
    offset := c, size := fp.offset + fp.size - c
    data := if fp.func.isSome then fp.data else fp.data.drop (c - fp.offset) }

variable {fp : Fixup} {c : Nat}

theorem Fixup.after_of_le (h : c ≤ fp.offset) : fp.after c = some fp :=
  if_pos h

theorem Fixup.after_of_done (h : fp.offset < c) (hdone : fp.offset + fp.size ≤ c) : fp.after c = none := by
  unfold Fixup.after
  rw [if_neg (by omega), if_pos hdone]

theorem Fixup.after_of_cut (h : fp.offset < c) (hcut : c < fp.offset + fp.size) : fp.after c = some { fp with
      offset := c, size := fp.offset + fp.size - c
      data := if fp.func.isSome then fp.data else fp.data.drop (c - fp.offset) } := by
  unfold Fixup.after
  rw [if_neg (by omega), if_neg (by omega)]

/-- What is left writes the same bytes. -/
theorem Fixup.value_cut {c p : Nat} (h : fp.offset ≤ c) (hp : c ≤ p) (b : Byte) : Fixup.value { fp with
      offset := c, size := fp.offset + fp.size - c
      data := if fp.func.isSome then fp.data else fp.data.drop (c - fp.offset) } p b =
      fp.value p b := by
  unfold Fixup.value
  cases hfunc : fp.func with
  | none =>
    simp only [isSome_none, Bool.false_eq_true, if_false]
    rw [getD_eq_getElem?_getD, List.getElem?_drop, getD_eq_getElem?_getD]
    congr 2
    omega
  | some func => simp

theorem fixedByte_after {c p : Nat} (hp : c ≤ p) (fixups : List Fixup) (b : Byte) :
    fixedByte (fixups.filterMap (Fixup.after c)) p b = fixedByte fixups p b := by
  induction fixups generalizing b with
  | nil => rfl
  | cons fp rest ih =>
    by_cases hbehind : c ≤ fp.offset
    · rw [filterMap_cons_some (Fixup.after_of_le hbehind)]
      exact ih _
    by_cases hdone : fp.offset + fp.size ≤ c
    · rw [filterMap_cons_none (Fixup.after_of_done (by omega) hdone), ih, fixedByte, if_neg (by omega)]
    · rw [filterMap_cons_some (Fixup.after_of_cut (by omega) (by omega)), fixedByte, ih,
        fixedByte, Fixup.value_cut (by omega) hp]
      congr 1
      by_cases hin : p < fp.offset + fp.size
      · rw [if_pos (by simp only; omega), if_pos (by omega)]
      · rw [if_neg (by simp only; omega), if_neg (by omega)]

variable {fixups : List Fixup}

theorem fixedByte_of_not_modifies {p : Nat} (h : ¬Modifies fixups p) (b : Byte) : fixedByte fixups p b = b := by
  induction fixups generalizing b with
  | nil => rfl
  | cons fp rest ih =>
    have hfp : ¬(fp.offset ≤ p ∧ p < fp.offset + fp.size) := fun hin => h ⟨fp, mem_cons_self, hin⟩
    rw [fixedByte, if_neg hfp]
    apply ih
    intro hm
    obtain ⟨fp', hfp', hin⟩ := hm
    exact h ⟨fp', mem_cons_of_mem _ hfp', hin⟩

@[simp] theorem length_fixedBytes (offset : Nat) (fixups : List Fixup) (data : List Byte) :
    (fixedBytes offset fixups data).length = data.length := by
  simp [fixedBytes]

theorem getElem?_fixedBytes (offset : Nat) (fixups : List Fixup) (data : List Byte) (i : Nat) :
    (fixedBytes offset fixups data)[i]? = data[i]?.map fun b => fixedByte fixups (offset + i) b := by
  unfold fixedBytes
  rw [List.getElem?_mapIdx]

theorem fixedBytes_of_not_modifies {offset : Nat} {data : List Byte}
    (h : ∀ p, offset ≤ p → p < offset + data.length → ¬Modifies fixups p) :
    fixedBytes offset fixups data = data := by
  apply ext_getElem?
  intro i
  rw [getElem?_fixedBytes]
  by_cases hi : i < data.length
  · rw [List.getElem?_eq_getElem hi, map_some, fixedByte_of_not_modifies (h (offset + i) (by omega) (by omega))]
  · rw [List.getElem?_eq_none (by omega), map_none]

theorem fixedBytes_after {c offset : Nat} (hc : c ≤ offset) (fixups : List Fixup) (data : List Byte) :
    fixedBytes offset (fixups.filterMap (Fixup.after c)) data = fixedBytes offset fixups data := by
  apply ext_getElem?
  intro i
  rw [getElem?_fixedBytes, getElem?_fixedBytes]
  congr 1
  funext b
  exact fixedByte_after (by omega) fixups b

/-! ## Section 2: What is left of a list -/

theorem filterMap_after_eq_self (h : ∀ fp ∈ fixups, c ≤ fp.offset) :
    fixups.filterMap (Fixup.after c) = fixups := by
  induction fixups with
  | nil => rfl
  | cons fp rest ih =>
    rw [filterMap_cons_some (Fixup.after_of_le (h fp mem_cons_self)),
      ih fun fp' hfp' => h fp' (mem_cons_of_mem _ hfp')]

theorem modifies_after {c p : Nat} (hp : c ≤ p) (h : Modifies fixups p) :
    Modifies (fixups.filterMap (Fixup.after c)) p := by
  obtain ⟨fp, hfp, hin⟩ := h
  by_cases hbehind : c ≤ fp.offset
  · exact ⟨fp, mem_filterMap.mpr ⟨fp, hfp, Fixup.after_of_le hbehind⟩, hin⟩
  · refine ⟨_, mem_filterMap.mpr ⟨fp, hfp, Fixup.after_of_cut (by omega) (by omega)⟩, ?_⟩
    simp only
    omega

/-- What is left of what is left. -/
theorem Fixup.after_after {c c' : Nat} (hle : c ≤ c') (fp : Fixup) :
    (fp.after c).bind (Fixup.after c') = fp.after c' := by
  by_cases hbehind : c ≤ fp.offset
  · rw [Fixup.after_of_le hbehind]
    rfl
  by_cases hdone : fp.offset + fp.size ≤ c
  · rw [Fixup.after_of_done (by omega) hdone, Fixup.after_of_done (by omega) (by omega)]
    rfl
  · rw [Fixup.after_of_cut (by omega) (by omega), bind_some]
    by_cases hdone' : fp.offset + fp.size ≤ c'
    · have hlt : fp.offset < c' := by omega
      rw [Fixup.after_of_done hlt hdone']
      by_cases heq : c' = c
      · omega
      · exact Fixup.after_of_done (by simp only; omega) (by simp only; omega)
    · have hlt : fp.offset < c' := by omega
      rw [Fixup.after_of_cut hlt (by omega)]
      by_cases heq : c' = c
      · subst heq
        exact Fixup.after_of_le (by simp)
      · rw [Fixup.after_of_cut (by simp only; omega) (by simp only; omega)]
        simp only [Option.some.injEq, Fixup.mk.injEq, true_and, and_true]
        refine ⟨by omega, ?_⟩
        cases fp.func with
        | none =>
          simp only [isSome_none, Bool.false_eq_true, if_false, drop_drop]
          congr 1
          omega
        | some func => simp

theorem filterMap_after_after {c c' : Nat} (hle : c ≤ c') (fixups : List Fixup) :
    (fixups.filterMap (Fixup.after c)).filterMap (Fixup.after c') = fixups.filterMap (Fixup.after c') := by
  rw [filterMap_filterMap]
  congr 1
  funext fp
  exact Fixup.after_after hle fp

theorem Fixup.after_offset {fp fp' : Fixup} (h : fp.after c = some fp') : fp'.offset = max fp.offset c := by
  unfold Fixup.after at h
  split at h
  · obtain rfl : fp = fp' := some.inj h
    omega
  · split at h
    · contradiction
    · obtain rfl := some.inj h
      simp only
      omega

theorem pairwise_after (h : fixups.Pairwise fun fp fp' => fp.offset ≤ fp'.offset) :
    (fixups.filterMap (Fixup.after c)).Pairwise fun fp fp' => fp.offset ≤ fp'.offset := by
  rw [pairwise_filterMap]
  apply h.imp
  intro fp fp' hle r hr r' hr'
  rw [Fixup.after_offset hr, Fixup.after_offset hr']
  omega

theorem Fixup.IsMade.after {fp fp' : Fixup} (h : fp.IsMade) (hafter : fp.after c = some fp') : fp'.IsMade := by
  unfold Fixup.after at hafter
  split at hafter
  · obtain rfl : fp = fp' := some.inj hafter
    exact h
  · split at hafter
    · contradiction
    · obtain rfl := some.inj hafter
      rcases h with hdata | hzero
      · left
        constructor
        · exact hdata.nofunc
        · simp only [hdata.nofunc, isSome_none, Bool.false_eq_true, if_false, length_drop, hdata.length]
          omega
      · exact Or.inr hzero

/-! ## Section 3: One block -/

/-- What a made fixup writes to the part of a block that it covers. -/
def Fixup.written (fp : Fixup) (slice : List Byte) (clen : Nat) : List Byte × List Byte :=
  match fp.func with
  | some func => (func slice fp.data, fp.data)
  | none => (fp.data.take clen, fp.data.drop clen)

theorem Fixup.IsMade.length_written (h : fp.IsMade) (slice : List Byte)
    (hle : slice.length ≤ fp.size) : (fp.written slice slice.length).1.length = slice.length := by
  unfold Fixup.written
  rcases h with hdata | hzero
  · rw [hdata.nofunc]
    simp [hdata.length, hle]
  · rw [hzero]
    simp [zerofixup]

theorem Fixup.IsMade.getElem?_written (h : fp.IsMade) {slice : List Byte}
    (hle : slice.length ≤ fp.size) (j : Nat) :
    (fp.written slice slice.length).1[j]? = slice[j]?.map fun b => fp.value (fp.offset + j) b := by
  unfold Fixup.written Fixup.value
  by_cases hj : j < slice.length
  · rcases h with hdata | hzero
    · have hlen := hdata.length
      rw [hdata.nofunc]
      simp only [List.getElem?_eq_getElem hj, map_some]
      rw [List.getElem?_take_of_lt hj, Nat.add_sub_cancel_left, getD_eq_getElem?_getD,
        List.getElem?_eq_getElem (by omega)]
      rfl
    · rw [hzero]
      simp [zerofixup, hj]
  · rw [List.getElem?_eq_none (l := slice) (by omega), map_none]
    have := h.length_written slice hle
    unfold Fixup.written at this
    exact List.getElem?_eq_none (by omega)

/-- Writing the part of a fixup that is in the block, and then the other fixups. -/
theorem fixedBytes_overwrite {offset : Nat} {data : List Byte} (hmade : fp.IsMade)
    (hlo : offset ≤ fp.offset) {clen : Nat} (hclen : clen = min (offset + data.length - fp.offset) fp.size)
    (rest : List Fixup) :
    fixedBytes offset rest (overwrite data
        (fp.written ((data.drop (fp.offset - offset)).take clen) clen).1 (fp.offset - offset)) =
      fixedBytes offset (fp :: rest) data := by
  generalize hslice : (data.drop (fp.offset - offset)).take clen = slice
  have hlen : slice.length = clen := by
    rw [← hslice, length_take, length_drop]
    omega
  have hle : slice.length ≤ fp.size := by omega
  have hwritten := hmade.length_written _ hle
  have hbytes := hmade.getElem?_written hle
  rw [hlen] at hwritten hbytes
  generalize (fp.written slice clen).1 = new at hwritten hbytes
  -- outside of the block nothing is written
  by_cases hfits : fp.offset - offset + new.length ≤ data.length
  swap
  · have hzero : new = [] := length_eq_zero_iff.mp (by omega)
    rw [hzero]
    apply ext_getElem?
    intro i
    have hsame : overwrite data [] (fp.offset - offset) = data := by
      simp [overwrite, take_append_drop]
    rw [hsame, getElem?_fixedBytes, getElem?_fixedBytes]
    by_cases hi : i < data.length
    · rw [List.getElem?_eq_getElem hi, map_some, map_some, fixedByte, if_neg (by omega)]
    · rw [List.getElem?_eq_none (by omega), map_none, map_none]
  apply ext_getElem?
  intro i
  rw [getElem?_fixedBytes, getElem?_fixedBytes, getElem?_overwrite hfits]
  by_cases hi : i < data.length
  · rw [List.getElem?_eq_getElem hi, map_some, fixedByte]
    by_cases hin : fp.offset ≤ offset + i ∧ offset + i < fp.offset + fp.size
    · have hj : i - (fp.offset - offset) < clen := by omega
      have hi' : fp.offset - offset + (i - (fp.offset - offset)) = i := by omega
      rw [if_pos (by omega), if_pos hin, hbytes, ← hslice, List.getElem?_take_of_lt hj,
        List.getElem?_drop, hi', List.getElem?_eq_getElem hi,
        show fp.offset + (i - (fp.offset - offset)) = offset + i by omega]
      rfl
    · rw [if_neg (by omega), if_neg hin]
      rfl
  · rw [if_neg (by omega), List.getElem?_eq_none (by omega : data.length ≤ i)]
    rfl

variable {data data' : List Byte} {relocs : List Reloc}

/-- A fixup that begins in the block: some of it is written, then the others are applied, and
    it stays in the list if it has more bytes. -/
theorem applyfixups_cons {offset size : Nat} {rest fixups' : List Fixup} (hbegins : fp.offset < offset + size)
    (happly : applyfixups offset size (fp :: rest) data = .ok (data', fixups', relocs)) :
    offset ≤ fp.offset ∧ ∃ clen fixups₁ relocs₁, clen ≤ min (offset + size - fp.offset) fp.size ∧
      applyfixups offset size rest (overwrite data
        (fp.written ((data.drop (fp.offset - offset)).take clen) clen).1 (fp.offset - offset)) =
          .ok (data', fixups₁, relocs₁) ∧
      fixups' = if 0 < fp.size - clen then
        { fp with
          offset := fp.offset + clen, size := fp.size - clen
          data := (fp.written ((data.drop (fp.offset - offset)).take clen) clen).2 } :: fixups₁
        else fixups₁ := by
  unfold applyfixups at happly
  obtain ⟨_, hassert, happly⟩ := bind_ok happly
  have hoff : offset ≤ fp.offset := by simpa using assert_ok hassert
  rw [if_neg (by omega)] at happly
  obtain ⟨_, -, happly⟩ := bind_ok happly
  obtain ⟨_, hcoff, happly⟩ := bind_ok happly
  obtain ⟨_, -, happly⟩ := bind_ok happly
  obtain ⟨⟨data₁, fixups₁, relocs₁⟩, happly₁, happly⟩ := bind_ok happly
  have hcoff : (fp.offset - offset) % 2 ^ 32 = fp.offset - offset := by
    have : offset + (fp.offset - offset) % 2 ^ 32 = fp.offset := by
      simpa using assert_ok hcoff
    omega
  simp only [hcoff] at happly₁ happly
  generalize hclen : (if decide (offset + size < fp.offset + fp.size) = true then
    (offset + size - fp.offset) % 2 ^ 32 else fp.size % 2 ^ 32) = clen at happly₁ happly
  refine ⟨hoff, clen, fixups₁, relocs₁, ?_, ?_, ?_⟩
  · split at hclen <;> simp only [decide_eq_true_eq] at * <;> omega
  · have hdata : data₁ = data' := by
      split at happly <;> simp only [Except.ok.injEq, Prod.mk.injEq] at happly <;>
        exact happly.1
    rw [← hdata]
    exact happly₁
  · split at happly
    · rename_i hleft
      rw [if_pos hleft]
      simp only [Except.ok.injEq, Prod.mk.injEq] at happly
      exact happly.2.1.symm
    · rename_i hleft
      rw [if_neg hleft]
      simp only [Except.ok.injEq, Prod.mk.injEq] at happly
      exact happly.2.1.symm

theorem applyfixups_behind {offset size : Nat} {rest fixups' : List Fixup} (hbehind : offset + size ≤ fp.offset)
    (happly : applyfixups offset size (fp :: rest) data = .ok (data', fixups', relocs)) :
    data' = data ∧ fixups' = fp :: rest := by
  unfold applyfixups at happly
  obtain ⟨_, -, happly⟩ := bind_ok happly
  rw [if_pos hbehind] at happly
  simp only [Except.ok.injEq, Prod.mk.injEq] at happly
  exact ⟨happly.1.symm, happly.2.1.symm⟩

/-- Some fixup of the list begins before byte `c`. -/
def Late (c : Nat) (fixups : List Fixup) : Prop := ∃ fp ∈ fixups, fp.offset < c

theorem Late.mono {c c' : Nat} (h : Late c fixups) (hle : c ≤ c') : Late c' fixups := by
  obtain ⟨fp, hfp, hlt⟩ := h
  exact ⟨fp, hfp, by omega⟩

theorem Late.append {fixups fixups' : List Fixup} (h : Late c fixups)
    (hsub : fixups ⊆ fixups') : Late c fixups' := by
  obtain ⟨fp, hfp, hlt⟩ := h
  exact ⟨fp, hsub hfp, hlt⟩

theorem Late.applyfixups {c offset size : Nat} (hc : c ≤ offset) {fixups fixups' : List Fixup} (h : Late c fixups)
    (happly : Imagezip.applyfixups offset size fixups data = .ok (data', fixups', relocs)) : Late c fixups' := by
  induction fixups generalizing data data' fixups' relocs with
  | nil =>
    obtain ⟨fp, hfp, -⟩ := h
    cases hfp
  | cons fp rest ih =>
    by_cases hbegins : fp.offset < offset + size
    · obtain ⟨hoff, clen, fixups₁, relocs₁, -, hrest, rfl⟩ := applyfixups_cons hbegins happly
      -- the assertion has passed the first fixup, so it is another one
      have hlate : Late c rest := by
        obtain ⟨fp', hfp', hlt⟩ := h
        rcases mem_cons.mp hfp' with rfl | hfp'
        · omega
        · exact ⟨fp', hfp', hlt⟩
      have hlate₁ := ih hlate hrest
      split
      · exact hlate₁.append (subset_cons_self _ _)
      · exact hlate₁
    · obtain ⟨-, rfl⟩ := applyfixups_behind (by omega) happly
      exact h

/-- **One block.** Applying the fixups of a block gives the bytes that they are for and leaves
    what is behind the block, or a fixup stays that begins before the end of the block. -/
theorem applyfixups_exact {offset size : Nat} {fixups fixups' : List Fixup} (hlen : data.length = size)
    (hsorted : fixups.Pairwise fun fp fp' => fp.offset ≤ fp'.offset) (hmade : ∀ fp ∈ fixups, fp.IsMade)
    (happly : applyfixups offset size fixups data = .ok (data', fixups', relocs)) :
    Late (offset + size) fixups' ∨ data' = fixedBytes offset fixups data ∧
        fixups' = fixups.filterMap (Fixup.after (offset + size)) := by
  induction fixups generalizing data data' fixups' relocs with
  | nil =>
    obtain ⟨rfl, rfl, -⟩ : data = data' ∧ [] = fixups' ∧ [] = relocs := by
      simpa [applyfixups] using happly
    right
    refine ⟨?_, rfl⟩
    rw [fixedBytes_of_not_modifies]
    intro p _ _ hm
    obtain ⟨fp, hfp, -⟩ := hm
    cases hfp
  | cons fp rest ih =>
    obtain ⟨hfirst, hrest⟩ := pairwise_cons.mp hsorted
    have hfp := hmade fp mem_cons_self
    by_cases hbegins : fp.offset < offset + size
    swap
    · -- all fixups are behind the block
      obtain ⟨rfl, rfl⟩ := applyfixups_behind (by omega) happly
      have hall : ∀ fp' ∈ fp :: rest, offset + size ≤ fp'.offset := by
        intro fp' hfp'
        rcases mem_cons.mp hfp' with rfl | hfp'
        · omega
        · have := hfirst fp' hfp'
          omega
      right
      rw [filterMap_after_eq_self hall, fixedBytes_of_not_modifies]
      · exact ⟨rfl, rfl⟩
      · intro p _ hp hm
        obtain ⟨fp', hfp', hin⟩ := hm
        have := hall fp' hfp'
        omega
    · obtain ⟨hoff, clen, fixups₁, relocs₁, hle, happly₁, rfl⟩ := applyfixups_cons hbegins happly
      by_cases hwhole : clen = min (offset + size - fp.offset) fp.size
      swap
      · -- the length has been cut to 32 bits, and what is left begins in the block
        left
        rw [if_pos (by omega)]
        exact ⟨_, mem_cons_self, by simp only; omega⟩
      have hslice : ((data.drop (fp.offset - offset)).take clen).length = clen := by
        rw [length_take, length_drop]
        omega
      have hnew := hfp.length_written ((data.drop (fp.offset - offset)).take clen) (by omega)
      rw [hslice] at hnew
      have hlen₁ : (overwrite data (fp.written ((data.drop (fp.offset - offset)).take clen)
          clen).1 (fp.offset - offset)).length = size := by
        rw [length_overwrite (by rw [hnew]; omega), hlen]
      rcases ih hlen₁ hrest (fun fp' hfp' => hmade fp' (mem_cons_of_mem _ hfp')) happly₁ with hlate | hexact
      · left
        split
        · exact hlate.append (subset_cons_self _ _)
        · exact hlate
      · right
        obtain ⟨rfl, rfl⟩ := hexact
        refine ⟨fixedBytes_overwrite hfp hoff (by rw [hlen]; exact hwhole) rest, ?_⟩
        by_cases hdone : fp.offset + fp.size ≤ offset + size
        · rw [if_neg (by omega), filterMap_cons_none (Fixup.after_of_done (by omega) hdone)]
        · rw [if_pos (by omega), filterMap_cons_some (Fixup.after_of_cut (by omega) (by omega))]
          have hcut : clen = offset + size - fp.offset := by omega
          congr 2
          · omega
          · omega
          · unfold Fixup.written
            cases fp.func with
            | none => simp [hcut]
            | some func => simp

end Emulab.Imagezip
