import Emulab.Imagezip.Decls

/-! # Fixups

  Modifications that need to be made to file data prior to compressing.
  Applying a fixup is destructive: it is removed from the list, or, if it
  extends beyond the current data, reduced to the part that is left.
-/

namespace Emulab.Imagezip

open MachineInt List

/-! ## Section 1: The fixup list -/

/-- No relocation is to be generated. -/
abbrev RELOC_NONE : Nat := 0

/-- A modification of the bytes `offset, ..., offset + size - 1`. -/
structure Fixup where
  offset : Nat
  poffset : Nat
  size : Nat
  reloctype : Nat
  /-- The replacement, or the argument of the function. -/
  data : List Byte
  /-- A function to apply in place of a replacement. -/
  func : Option (List Byte → List Byte → List Byte)

/-- A relocation entry that a fixup has generated. -/
structure Reloc where
  offset : Nat
  size : Nat
  reloctype : Nat

/-- Whether a fixup is associated with any part of a range of sectors. The
    list is sorted, so the search ends at a fixup behind the range. -/
def hasfixup (fixups : List Fixup) (soffset ssize : Nat) : Bool :=
  let offset := sectobytes soffset
  let eoffset := offset + sectobytes ssize
  match fixups with
  | [] => false
  | fp :: rest =>
    if eoffset ≤ fp.offset then false
    else if fp.offset + fp.size ≤ offset then hasfixup rest soffset ssize
    else true

/-- Copy the fixup list for a use that does not generate relocations. -/
def savefixups (fixups : List Fixup) : List Fixup :=
  (fixups.map fun fp => { fp with reloctype := RELOC_NONE }).reverse.mergeSort
    fun fp fp' => fp.offset ≤ fp'.offset

/-- Overwrite the bytes of `data` from `coff` on with `new`. -/
def overwrite (data new : List Byte) (coff : Nat) : List Byte :=
  data.take coff ++ new ++ data.drop (coff + new.length)

/-- Apply the fixups that overlap `[offset, offset + size)` to `data`, the
    bytes at this range. The fixups left over, and the relocations generated. -/
def applyfixups (offset size : Nat) : List Fixup → List Byte → Except Failure (List Byte × List Fixup × List Reloc)
  | [], data => .ok (data, [], [])
  | fp :: rest, data => do
    assert (offset ≤ fp.offset)
    if offset + size ≤ fp.offset then
      .ok (data, fp :: rest, [])
    else
      let partly : Bool := offset + size < fp.offset + fp.size
      assert (!partly || fp.reloctype = RELOC_NONE)
      let coff := (fp.offset - offset) % 2 ^ 32
      let clen := if partly then (offset + size - fp.offset) % 2 ^ 32 else fp.size % 2 ^ 32
      assert (offset + coff = fp.offset)
      assert (offset + coff + clen ≤ fp.offset + fp.size)
      let (new, fdata) :=
        match fp.func with
        | some func => (func ((data.drop coff).take clen) fp.data, fp.data)
        | none => (fp.data.take clen, fp.data.drop clen)
      let reloc : List Reloc :=
        if fp.reloctype ≠ RELOC_NONE then [⟨fp.offset - fp.poffset, fp.size, fp.reloctype⟩] else []
      let (data, fixups, relocs) ← applyfixups offset size rest (overwrite data new coff)
      -- see if there is anything left over in the fixup
      if 0 < fp.size - clen then
        .ok (data, { fp with offset := fp.offset + clen, size := fp.size - clen, data := fdata } ::
          fixups, reloc ++ relocs)
      else
        .ok (data, fixups, reloc ++ relocs)

/-! ## Section 2: Which bytes the list modifies -/

/-- Some fixup modifies byte `p`. -/
def Modifies (fixups : List Fixup) (p : Nat) : Prop :=
  ∃ fp ∈ fixups, fp.offset ≤ p ∧ p < fp.offset + fp.size

/-- The list is sorted as far as fixups behind byte `c` are concerned. -/
def SortedFrom (c : Nat) (fixups : List Fixup) : Prop :=
  fixups.Pairwise fun fp fp' => fp.offset ≤ c ∨ fp.offset ≤ fp'.offset

/-- `fixups` is what is left of `orig` once the bytes before `c` have been
    processed: it still modifies every byte from `c` on that `orig` does. -/
structure Pending (orig : List Fixup) (c : Nat) (fixups : List Fixup) : Prop where
  /-- The search of the list is sound from `c` on. -/
  sorted : SortedFrom c fixups
  /-- No modification behind `c` has been lost. -/
  kept : ∀ p, c ≤ p → Modifies orig p → Modifies fixups p

theorem Pending.mono {orig fixups : List Fixup} {c c' : Nat} (h : Pending orig c fixups)
    (hle : c ≤ c') : Pending orig c' fixups := by
  constructor
  · exact h.sorted.imp fun hor => by omega
  · intro p hp
    exact h.kept p (by omega)

theorem not_modifies_of_hasfixup {c soffset ssize : Nat} {fixups : List Fixup}
    (hs : SortedFrom c fixups) (hc : c ≤ sectobytes soffset) (hsize : 0 < ssize)
    (h : hasfixup fixups soffset ssize = false) (p : Nat) (hlo : sectobytes soffset ≤ p)
    (hhi : p < sectobytes soffset + sectobytes ssize) : ¬Modifies fixups p := by
  have hpos : 0 < sectobytes ssize := by
    unfold sectobytes
    exact Nat.mul_pos hsize (by decide)
  induction fixups with
  | nil =>
    intro hm
    obtain ⟨fp, hfp, -⟩ := hm
    simp at hfp
  | cons fp rest ih =>
    obtain ⟨hfirst, hrest⟩ := pairwise_cons.mp hs
    intro hm
    obtain ⟨fp', hfp', hin⟩ := hm
    unfold hasfixup at h
    simp only at h
    split at h
    · -- the search has stopped at a fixup behind the range
      rcases mem_cons.mp hfp' with rfl | hfp'
      · omega
      · have := hfirst fp' hfp'
        omega
    · split at h
      · rcases mem_cons.mp hfp' with rfl | hfp'
        · omega
        · exact ih hrest h ⟨fp', hfp', hin⟩
      · simp at h

theorem applyfixups_left {c offset size : Nat} (hc : c ≤ offset) {fixups : List Fixup}
    (hs : SortedFrom c fixups) {data data' : List Byte} {fixups' : List Fixup}
    {relocs : List Reloc} (h : applyfixups offset size fixups data = .ok (data', fixups', relocs)) :
    SortedFrom (offset + size) fixups' ∧ ∀ p, offset + size ≤ p → Modifies fixups p → Modifies fixups' p := by
  induction fixups generalizing data data' fixups' relocs with
  | nil =>
    unfold applyfixups at h
    obtain ⟨-, rfl, -⟩ : data = data' ∧ [] = fixups' ∧ [] = relocs := by simpa using h
    exact ⟨List.Pairwise.nil, fun p _ hm => hm⟩
  | cons fp rest ih =>
    obtain ⟨hfirst, hrest⟩ := pairwise_cons.mp hs
    unfold applyfixups at h
    obtain ⟨_, -, h⟩ := bind_ok h
    split at h
    · -- the remaining fixups are all behind the range
      obtain ⟨-, rfl, -⟩ : data = data' ∧ fp :: rest = fixups' ∧ [] = relocs := by simpa using h
      have hpending : Pending (fp :: rest) c (fp :: rest) := ⟨hs, fun p _ hm => hm⟩
      exact ⟨(hpending.mono (by omega)).sorted, fun p _ hm => hm⟩
    · rename_i hbehind
      obtain ⟨_, -, h⟩ := bind_ok h
      obtain ⟨_, -, h⟩ := bind_ok h
      obtain ⟨_, -, h⟩ := bind_ok h
      obtain ⟨⟨data₁, fixups₁, relocs₁⟩, happly, h⟩ := bind_ok h
      obtain ⟨hs₁, hkept₁⟩ := ih hrest happly
      simp only at h
      generalize hclen : (if decide (offset + size < fp.offset + fp.size) = true then
        (offset + size - fp.offset) % 2 ^ 32 else fp.size % 2 ^ 32) = clen at h
      have hle : fp.offset + clen ≤ offset + size ∧ clen ≤ fp.size := by
        split at hclen <;> simp only [decide_eq_true_eq] at * <;> omega
      split at h
      · -- a part of the fixup is left
        obtain ⟨-, rfl, -⟩ : _ ∧ _ ∧ _ := by simpa using h
        constructor
        · exact pairwise_cons.mpr ⟨fun _ _ => Or.inl hle.1, hs₁⟩
        · intro p hp hm
          obtain ⟨fp', hfp', hin⟩ := hm
          rcases mem_cons.mp hfp' with rfl | hfp'
          · refine ⟨_, mem_cons_self, ?_⟩
            simp only
            omega
          · obtain ⟨fp₁, hfp₁, hin₁⟩ := hkept₁ p hp ⟨fp', hfp', hin⟩
            exact ⟨fp₁, mem_cons_of_mem _ hfp₁, hin₁⟩
      · -- the fixup is used up
        rename_i hnone
        obtain ⟨-, rfl, -⟩ : _ ∧ _ ∧ _ := by simpa using h
        constructor
        · exact hs₁
        · intro p hp hm
          obtain ⟨fp', hfp', hin⟩ := hm
          rcases mem_cons.mp hfp' with rfl | hfp'
          · omega
          · exact hkept₁ p hp ⟨fp', hfp', hin⟩

theorem Pending.applyfixups {orig fixups fixups' : List Fixup} {c offset size : Nat}
    {data data' : List Byte} {relocs : List Reloc} (h : Pending orig c fixups) (hc : c ≤ offset)
    (happly : Imagezip.applyfixups offset size fixups data = .ok (data', fixups', relocs)) :
    Pending orig (offset + size) fixups' := by
  obtain ⟨hs, hkept⟩ := applyfixups_left hc h.sorted happly
  constructor
  · exact hs
  · intro p hp hm
    exact hkept p hp (h.kept p (by omega) hm)

theorem pending_savefixups (fixups : List Fixup) : Pending fixups 0 (savefixups fixups) := by
  unfold savefixups
  constructor
  · generalize (fixups.map fun fp => { fp with reloctype := RELOC_NONE }).reverse = copies
    have hsorted : (copies.mergeSort fun fp fp' => fp.offset ≤ fp'.offset).Pairwise
        fun fp fp' => decide (fp.offset ≤ fp'.offset) = true := by
      apply pairwise_mergeSort
      · intro a b c
        simp only [decide_eq_true_eq]
        omega
      · intro a b
        simp only [Bool.or_eq_true, decide_eq_true_eq]
        omega
    exact hsorted.imp fun hle => Or.inr (by simpa using hle)
  · intro p _ hm
    obtain ⟨fp, hfp, hin⟩ := hm
    refine ⟨{ fp with reloctype := RELOC_NONE }, ?_, hin⟩
    rw [mem_mergeSort, mem_reverse]
    exact mem_map.mpr ⟨fp, hfp, rfl⟩

theorem pending_sorted {fixups : List Fixup}
    (h : fixups.Pairwise fun fp fp' => fp.offset ≤ fp'.offset) : Pending fixups 0 fixups :=
  ⟨h.imp fun hle => Or.inr hle, fun _ _ hm => hm⟩

end Emulab.Imagezip
