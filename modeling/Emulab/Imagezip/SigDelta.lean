import Emulab.Imagezip.Reloc

/-! # The delta of two images by their signatures

  Where the signatures of two images have a hash of the same range, the hashes
  say whether the range is in the delta. All other ranges of the new image are.
-/

namespace Emulab.Imagezip

open MachineInt IntervalMap List

/-! ## Section 1: The walk over the new signature -/

/-- `struct deltainfo`, without the new file. -/
structure DeltaInfo where
  omap : NdzRangemap NdzHashdata
  dmap : NdzRangemap NdzHashdata
  omapdone : Bool

/-- Add `[addr, eaddr]` to the delta map. -/
def addDelta (dmap : NdzRangemap NdzHashdata) (addr eaddr : Nat) : Except Failure (NdzRangemap NdzHashdata) :=
  allocResult .assertion (ndzRangemapAlloc dmap addr (addU64 (subU64 eaddr addr) 1) none false)

/-- Compare the hashes of two ranges, which must be of the same length. -/
def sameHash (odata ndata : Option NdzHashdata) : Except Failure Bool :=
  match odata, ndata with
  | some odata, some ndata => do
    assert (odata.hashlen = ndata.hashlen)
    return odata.hash.take ndata.hashlen = ndata.hash.take ndata.hashlen
  | _, _ => .error .assertion

/-- The relocations of a file in a range; a file without any is not searched. -/
def relocsIn (ndz : NdzFile) (addr size : Nat) : Except Failure Nat :=
  if ndz.relocdata.isSome then ndzRelocInrange ndz addr size else .ok 0

/-- Add a range of the new map to the delta map, unless the old map has it. -/
def compfastdelta (ndz : NdzFile) (range : NdzRange NdzHashdata)
    (_next : List (NdzRange NdzHashdata)) (dinfo : DeltaInfo) : Except Failure DeltaInfo := do
  let addr := range.start
  let eaddr := range.last
  if dinfo.omapdone then
    return { dinfo with dmap := ← addDelta dinfo.dmap addr eaddr }
  else
    match ndzRangemapLookup dinfo.omap addr with
    | none => .error .assertion
    | some res =>
      let dinfo := { dinfo with omap := { dinfo.omap with hint := res.hint } }
      match res.range with
      | none =>
        match dinfo.omap.ranges[linkOf res.prev]? with
        | none =>
          -- past the end of the old map
          return { dinfo with dmap := ← addDelta dinfo.dmap addr eaddr, omapdone := true }
        | some _ =>
          -- whether or not the next range of the old map begins within this one
          return { dinfo with dmap := ← addDelta dinfo.dmap addr eaddr }
      | some i =>
        match dinfo.omap.ranges[i]? with
        | none => .error .assertion
        | some orange =>
          if addr = orange.start ∧ eaddr = orange.last then
            let nreloc ← relocsIn ndz addr (addU64 (subU64 eaddr addr) 1)
            if nreloc ≠ 0 then
              return { dinfo with dmap := ← addDelta dinfo.dmap addr eaddr }
            else
              if ← sameHash orange.data range.data then
                return dinfo
              else
                return { dinfo with dmap := ← addDelta dinfo.dmap addr eaddr }
          else
            return { dinfo with dmap := ← addDelta dinfo.dmap addr eaddr }

/-- The delta map of two files; `none` if one of them has no signature. -/
def ndzComputeDeltaSigmap (ondz nndz : NdzFile) : Except Failure (Option (NdzRangemap NdzHashdata)) :=
  match ondz.hashmap, nndz.hashmap with
  | some omap, some nmap => do
    let dmap := ndzRangemapInit nmap.loaddr nmap.hiaddr
    let dinfo ← ndzRangemapIterate nmap (compfastdelta nndz) { omap := omap, dmap := dmap, omapdone := false }
    return some dinfo.dmap
  | _, _ => .ok none

/-! ## Section 2: What is omitted -/

/-- Both ranges have a hash, and it is the same. -/
def SameHashdata (orange range : NdzRange NdzHashdata) : Prop :=
  ∃ odata ∈ orange.data, ∃ ndata ∈ range.data, odata.hash.take ndata.hashlen = ndata.hash.take ndata.hashlen

instance (orange range : NdzRange NdzHashdata) : Decidable (SameHashdata orange range) :=
  inferInstanceAs (Decidable (∃ odata ∈ orange.data, ∃ ndata ∈ range.data,
    odata.hash.take ndata.hashlen = ndata.hash.take ndata.hashlen))

/-- The old map has a range with the same bounds and the same hash, and the new
    file has no relocation in it. -/
def Omitted (oranges : List (NdzRange NdzHashdata)) (ndz : NdzFile) (range : NdzRange NdzHashdata) : Prop :=
  (∃ orange ∈ oranges, orange.start = range.start ∧ orange.last = range.last ∧ SameHashdata orange range) ∧
  ∀ reloc ∈ ndz.relocs, ¬ (range.start ≤ reloc.sector ∧ reloc.sector ≤ range.last)

instance (oranges : List (NdzRange NdzHashdata)) (ndz : NdzFile) (range : NdzRange NdzHashdata) :
    Decidable (Omitted oranges ndz range) :=
  inferInstanceAs (Decidable ((∃ orange ∈ oranges, orange.start = range.start ∧
    orange.last = range.last ∧ SameHashdata orange range) ∧
    ∀ reloc ∈ ndz.relocs, ¬ (range.start ≤ reloc.sector ∧ reloc.sector ≤ range.last)))

/-- All ranges have hashes of one length, that of the type of the hash. -/
def HasHashes (hashlen : Nat) (ranges : List (NdzRange NdzHashdata)) : Prop :=
  ∀ r ∈ ranges, ∃ d ∈ r.data, d.hashlen = hashlen

/-- What a step of the walk does to the delta map. -/
def deltaStep (oranges : List (NdzRange NdzHashdata)) (ndz : NdzFile)
    (dmap : NdzRangemap NdzHashdata) (range : NdzRange NdzHashdata) :
    Except Failure (NdzRangemap NdzHashdata) :=
  if Omitted oranges ndz range then .ok dmap else addDelta dmap range.start range.last

variable {hashlen : Nat} {oranges : List (NdzRange NdzHashdata)} {ndz : NdzFile} {range : NdzRange NdzHashdata}

theorem sameHash_eq {orange : NdzRange NdzHashdata} (ho : ∃ d ∈ orange.data, d.hashlen = hashlen)
    (hr : ∃ d ∈ range.data, d.hashlen = hashlen) :
    sameHash orange.data range.data = .ok (decide (SameHashdata orange range)) := by
  obtain ⟨odata, hod, hol⟩ := ho
  obtain ⟨ndata, hnd, hnl⟩ := hr
  have hod : orange.data = some odata := hod
  have hnd : range.data = some ndata := hnd
  have hiff : SameHashdata orange range ↔ odata.hash.take ndata.hashlen = ndata.hash.take ndata.hashlen := by
    unfold SameHashdata
    simp [hod, hnd]
  rw [hod, hnd]
  unfold sameHash
  simp only [hol, hnl, decide_true, assert_true, hiff]
  rfl

/-- The relocations that force a range into the delta are counted. -/
theorem relocsIn_eq (hok : ndz.RelocsOk) (hle : range.start ≤ range.last) (h64 : range.last < 2 ^ 64) :
    ∃ nreloc, relocsIn ndz range.start (range.last + 1 - range.start) = .ok nreloc ∧ (nreloc = 0 ↔
        ∀ reloc ∈ ndz.relocs, ¬ (range.start ≤ reloc.sector ∧ reloc.sector ≤ range.last)) := by
  unfold relocsIn
  by_cases hsome : ndz.relocdata.isSome
  · rw [if_pos hsome, ndzRelocInrange_eq hok (by omega) (by omega)]
    refine ⟨_, rfl, ?_⟩
    rw [show range.start + (range.last + 1 - range.start) - 1 = range.last by omega,
      length_eq_zero_iff, filter_eq_nil_iff]
    simp only [decide_eq_true_eq]
  · rw [if_neg hsome]
    refine ⟨0, rfl, ?_⟩
    have hnil : ndz.relocs = [] := by
      unfold NdzFile.relocs
      rw [Option.not_isSome_iff_eq_none.mp hsome]
      rfl
    simp [hnil]

theorem omitted_iff (hs : Sorted oranges) (hle : range.start ≤ range.last)
    {orange : NdzRange NdzHashdata} (hmem : orange ∈ oranges) (hin : In range.start orange) :
    Omitted oranges ndz range ↔ (orange.start = range.start ∧ orange.last = range.last ∧
      SameHashdata orange range) ∧
      ∀ reloc ∈ ndz.relocs, ¬ (range.start ≤ reloc.sector ∧ reloc.sector ≤ range.last) := by
  constructor
  · rintro ⟨⟨orange', hmem', hstart, hlast, hsame⟩, hreloc⟩
    have heq : orange = orange' := by
      apply hs.unique hmem hmem' hin
      exact ⟨hstart.le, hlast.ge.trans' hle⟩
    subst heq
    exact ⟨⟨hstart, hlast, hsame⟩, hreloc⟩
  · rintro ⟨h, hreloc⟩
    exact ⟨⟨orange, hmem, h⟩, hreloc⟩

theorem rangeSize_eq (hle : range.start ≤ range.last) (h64 : range.last < 2 ^ 64)
    (hsize : range.last + 1 - range.start < 2 ^ 64) :
    addU64 (subU64 range.last range.start) 1 = range.last + 1 - range.start := by
  rw [subU64_of_le hle h64, addU64_of_lt (by omega)]
  omega

theorem compfastdelta_spec (hs : Sorted oranges) (hok : ndz.RelocsOk)
    (hhashes : HasHashes hashlen oranges) (hr : ∃ d ∈ range.data, d.hashlen = hashlen)
    (hle : range.start ≤ range.last) (hlast : range.last + 1 - range.start < 2 ^ 64)
    (h64 : range.last < 2 ^ 64) (next : List (NdzRange NdzHashdata)) (dinfo : DeltaInfo)
    (homap : dinfo.omap.ranges = oranges) (hdone : dinfo.omapdone = true → ∀ o ∈ oranges, o.last < range.start) :
    ∃ omap done, omap.ranges = oranges ∧ (done = true → ∀ o ∈ oranges, o.last < range.start) ∧
      compfastdelta ndz range next dinfo = (deltaStep oranges ndz dinfo.dmap range).map fun dmap =>
          { omap := omap, dmap := dmap, omapdone := done } := by
  have hsize := rangeSize_eq hle h64 hlast
  obtain ⟨omap, dmap, omapdone⟩ := dinfo
  simp only at homap hdone
  unfold compfastdelta
  by_cases hd : omapdone = true
  · -- all old ranges have been passed
    have hnot : ¬ Omitted oranges ndz range := by
      rintro ⟨⟨orange, hmem, hstart, hend, _⟩, _⟩
      have := hdone hd orange hmem
      omega
    refine ⟨omap, omapdone, homap, hdone, ?_⟩
    simp only [hd, if_true, deltaStep, if_neg hnot]
    cases addDelta dmap range.start range.last <;> rfl
  simp only [if_neg hd]
  obtain ⟨res, hres, hfound⟩ := ndzRangemapLookup_spec (homap ▸ hs : Sorted omap.ranges) range.start
  simp only [hres]
  rw [homap] at hfound
  obtain ⟨pre, orange, post, hsplit, hin, hrange, -, -⟩ | ⟨pre, post, hsplit, hpre, hpost, hrange, hprev, -⟩ :=
    hfound
  · -- the start is in a range of the old map
    have hget : omap.ranges[pre.length]? = some orange := by
      rw [homap, hsplit, getElem?_length_append, List.head?_cons]
    have hmem : orange ∈ oranges := hsplit ▸ mem_append_right _ mem_cons_self
    have hiff := @omitted_iff _ ndz _ hs hle _ hmem hin
    refine ⟨{ omap with hint := res.hint }, omapdone, homap, hdone, ?_⟩
    simp only [hrange, hget]
    by_cases hexact : range.start = orange.start ∧ range.last = orange.last
    · obtain ⟨nreloc, hcount, hzero⟩ := relocsIn_eq hok hle h64
      have hsame := sameHash_eq (hhashes orange hmem) hr
      rw [if_pos hexact, hsize, hcount, hsame]
      by_cases hn : nreloc = 0
      · -- the hashes decide
        have hiff : Omitted oranges ndz range ↔ SameHashdata orange range := by
          rw [hiff]
          constructor
          · rintro ⟨⟨_, _, h⟩, _⟩
            exact h
          · intro h
            exact ⟨⟨hexact.1.symm, hexact.2.symm, h⟩, hzero.mp hn⟩
        subst hn
        unfold deltaStep
        by_cases hsm : SameHashdata orange range
        · rw [if_pos (hiff.mpr hsm), decide_eq_true hsm]
          rfl
        · rw [if_neg (mt hiff.mp hsm), decide_eq_false hsm]
          cases addDelta dmap range.start range.last <;> rfl
      · have hnot : ¬ Omitted oranges ndz range := by
          rw [hiff]
          rintro ⟨_, h⟩
          exact hn (hzero.mpr h)
        unfold deltaStep
        rw [if_neg hnot]
        show (if nreloc ≠ 0 then _ else _) = _
        rw [if_pos hn]
        cases addDelta dmap range.start range.last <;> rfl
    · have hnot : ¬ Omitted oranges ndz range := by
        rw [hiff]
        rintro ⟨⟨hstart, hlast, _⟩, _⟩
        exact hexact ⟨hstart.symm, hlast.symm⟩
      simp only [if_neg hexact, deltaStep, if_neg hnot]
      cases addDelta dmap range.start range.last <;> rfl
  · -- the start is between two ranges of the old map
    have hnot : ¬ Omitted oranges ndz range := by
      rintro ⟨⟨orange, hmem, hstart, hlast, _⟩, _⟩
      rw [hsplit] at hmem
      rcases mem_append.mp hmem with h | h
      · have := hpre orange h
        omega
      · have := hpost orange h
        omega
    have hget : omap.ranges[linkOf res.prev]? = post.head? := by
      rw [homap, hprev, linkOf_prevOf, hsplit, getElem?_length_append]
    simp only [hrange, hget, deltaStep, if_neg hnot]
    cases post with
    | nil =>
      refine ⟨{ omap with hint := res.hint }, true, homap, ?_, ?_⟩
      · intro _ o ho
        rw [hsplit, append_nil] at ho
        exact hpre o ho
      · cases addDelta dmap range.start range.last <;> rfl
    | cons o post =>
      refine ⟨{ omap with hint := res.hint }, omapdone, homap, hdone, ?_⟩
      cases addDelta dmap range.start range.last <;> rfl

/-! ## Section 3: The walk -/

/-- What the delta map is after the ranges `pre`, with `rest` ahead. -/
structure DeltaOk (oranges : List (NdzRange NdzHashdata)) (ndz : NdzFile)
    (nmap : NdzRangemap NdzHashdata) (pre rest : List (NdzRange NdzHashdata))
    (dmap : NdzRangemap NdzHashdata) : Prop where
  inv : dmap.Inv
  bounds : dmap.loaddr = nmap.loaddr ∧ dmap.hiaddr = nmap.hiaddr
  behind : ∀ r ∈ dmap.ranges, ∀ r' ∈ rest, r.last < r'.start
  sectors : dmap.sectors ≤ size pre
  get : ∀ a, dmap.get a =
    if ∃ r ∈ pre, In a r ∧ ¬ Omitted oranges ndz r then some none else none

theorem deltaStep_ok {nmap dmap : NdzRangemap NdzHashdata} (hninv : nmap.Inv)
    {pre rest : List (NdzRange NdzHashdata)} (hsplit : nmap.ranges = pre ++ range :: rest)
    (h : DeltaOk oranges ndz nmap pre (range :: rest) dmap) :
    ∃ dmap', deltaStep oranges ndz dmap range = .ok dmap' ∧
      DeltaOk oranges ndz nmap (pre ++ [range]) rest dmap' := by
  have hmem : range ∈ nmap.ranges := hsplit ▸ mem_append_right _ mem_cons_self
  have hle := hninv.sorted.nonempty range hmem
  obtain ⟨hlo, hhi⟩ := hninv.within range hmem
  have h64 := hninv.hiaddr
  have hsorted := hninv.sorted
  rw [hsplit] at hsorted
  obtain ⟨_, hrest, _⟩ := sorted_append.mp hsorted
  have hnext := (sorted_cons.mp hrest).2.1
  have hroom : size pre + (range.last + 1 - range.start) < 2 ^ 64 := by
    have := hninv.sectors_lt
    rw [hsplit, size_append, size_cons] at this
    omega
  have hsize : size (pre ++ [range]) = size pre + (range.last + 1 - range.start) := by
    rw [size_append, size_cons, size_nil]
    omega
  have hexists : ∀ a, (∃ r ∈ pre ++ [range], In a r ∧ ¬ Omitted oranges ndz r) ↔
      (∃ r ∈ pre, In a r ∧ ¬ Omitted oranges ndz r) ∨ In a range ∧ ¬ Omitted oranges ndz range := by
    intro a
    simp only [mem_append, mem_singleton, or_and_right, exists_or, exists_eq_left]
  have hsectors := h.sectors
  unfold deltaStep
  by_cases hom : Omitted oranges ndz range
  · rw [if_pos hom]
    refine ⟨dmap, rfl, h.inv, h.bounds, ?_, by omega, ?_⟩
    · intro r hr r' hr'
      exact h.behind r hr r' (mem_cons_of_mem _ hr')
    · intro a
      rw [h.get]
      simp only [hexists, hom, not_true_eq_false, and_false, or_false]
  · rw [if_neg hom]
    have hbehind : ∀ r ∈ dmap.ranges, r.last < range.start := fun r hr =>
      h.behind r hr range mem_cons_self
    obtain ⟨dmap', halloc, heff, hsec⟩ := ndzRangemapAlloc_behind h.inv range.start
      (range.last + 1 - range.start) none (by omega) (by rw [h.bounds.1]; exact hlo)
      (by rw [h.bounds.2]; omega) hbehind (by omega)
    have hlast := heff.last_lt h.inv (by omega) hbehind
    refine ⟨dmap', ?_, heff.inv, ?_, ?_, by omega, ?_⟩
    · unfold addDelta
      rw [rangeSize_eq hle (by omega) (by omega), halloc, allocResult_ok]
    · rw [heff.bounds.1, heff.bounds.2]
      exact h.bounds
    · intro r hr r' hr'
      have := hlast r hr
      have := hnext r' hr'
      omega
    · intro a
      rw [heff.success rfl, h.get]
      simp only [hexists]
      by_cases hin : In a range
      · have hin' : range.start ≤ a ∧ a < range.start + (range.last + 1 - range.start) := by
          have h1 := hin.1
          have h2 := hin.2
          omega
        rw [if_pos hin', if_pos (.inr ⟨hin, hom⟩)]
      · have hin' : ¬ (range.start ≤ a ∧ a < range.start + (range.last + 1 - range.start)) := by
          intro h'
          exact hin ⟨h'.1, by omega⟩
        rw [if_neg hin']
        simp only [hin, false_and, or_false]

/-- The walk with its shortcut, or without it. -/
def compdelta (shortcut : Bool) (ndz : NdzFile) (range : NdzRange NdzHashdata)
    (next : List (NdzRange NdzHashdata)) (dinfo : DeltaInfo) : Except Failure DeltaInfo :=
  compfastdelta ndz range next { dinfo with omapdone := shortcut && dinfo.omapdone }

theorem compdelta_true (ndz : NdzFile) : compdelta true ndz = compfastdelta ndz := by
  funext range next dinfo
  unfold compdelta
  rw [Bool.true_and]

/-- Either walk adds, step by step, what `deltaStep` does. -/
theorem iterate_compdelta (shortcut : Bool) {omap nmap : NdzRangemap NdzHashdata}
    (hoinv : omap.Inv) (hninv : nmap.Inv) (hohash : HasHashes hashlen omap.ranges)
    (hnhash : HasHashes hashlen nmap.ranges) (hok : ndz.RelocsOk) :
    ∃ dinfo, ndzRangemapIterate nmap (compdelta shortcut ndz)
        { omap := omap, dmap := ndzRangemapInit nmap.loaddr nmap.hiaddr, omapdone := false } = .ok dinfo ∧
      nmap.ranges.foldlM (deltaStep omap.ranges ndz) (ndzRangemapInit nmap.loaddr nmap.hiaddr) = .ok dinfo.dmap ∧
      DeltaOk omap.ranges ndz nmap nmap.ranges [] dinfo.dmap := by
  let dmap₀ : NdzRangemap NdzHashdata := ndzRangemapInit nmap.loaddr nmap.hiaddr
  let P : List (NdzRange NdzHashdata) → List (NdzRange NdzHashdata) → DeltaInfo → Prop :=
    fun pre rest dinfo => nmap.ranges = pre ++ rest ∧ dinfo.omap.ranges = omap.ranges ∧
      (dinfo.omapdone = true → ∀ o ∈ omap.ranges, ∀ r ∈ rest, o.last < r.start) ∧
      pre.foldlM (deltaStep omap.ranges ndz) dmap₀ = .ok dinfo.dmap ∧
      DeltaOk omap.ranges ndz nmap pre rest dinfo.dmap
  have hstep : ∀ pre range next dinfo, P pre (range :: next) dinfo →
      ∃ dinfo', compdelta shortcut ndz range next dinfo = .ok dinfo' ∧ P (pre ++ [range]) next dinfo' := by
    rintro pre range next dinfo ⟨hsplit, homap, hdone, hfold, hdelta⟩
    have hmem : range ∈ nmap.ranges := hsplit ▸ mem_append_right _ mem_cons_self
    have hle := hninv.sorted.nonempty range hmem
    have hhi := (hninv.within range hmem).2
    have h64 := hninv.hiaddr
    have hsize : range.last + 1 - range.start < 2 ^ 64 := by
      have := hninv.sectors_lt
      rw [hsplit, size_append, size_cons] at this
      omega
    obtain ⟨dmap', hstep, hdelta'⟩ := deltaStep_ok hninv hsplit hdelta
    obtain ⟨omap', done', homap', hdone', hcomp⟩ := compfastdelta_spec hoinv.sorted hok hohash
      (hnhash range hmem) hle hsize (by omega) next
      { dinfo with omapdone := shortcut && dinfo.omapdone } homap
      (fun h o ho => hdone (Bool.and_elim_right h) o ho range mem_cons_self)
    refine ⟨{ omap := omap', dmap := dmap', omapdone := done' }, ?_, ?_, homap', ?_, ?_, hdelta'⟩
    · unfold compdelta
      rw [hcomp, hstep]
      rfl
    · rw [hsplit, append_cons]
    · -- what follows begins behind this range
      intro h o ho r hr
      have hsorted := hninv.sorted
      rw [hsplit] at hsorted
      have := (sorted_cons.mp (sorted_append.mp hsorted).2.1).2.1 r hr
      have := hdone' h o ho
      omega
    · rw [foldlM_append, hfold]
      show [range].foldlM (deltaStep omap.ranges ndz) dinfo.dmap = _
      rw [foldlM_cons, hstep]
      rfl
  have hinit : P [] nmap.ranges { omap := omap, dmap := dmap₀, omapdone := false } := by
    refine ⟨rfl, rfl, ?_, rfl, inv_ndzRangemapInit hninv.hiaddr, ⟨rfl, rfl⟩, ?_, Nat.zero_le _, ?_⟩
    · intro h
      cases h
    · intro r hr
      cases hr
    · intro a
      simp [dmap₀, ndzRangemapInit, NdzRangemap.get, IntervalMap.get]
  obtain ⟨dinfo, hiter, _, _, _, hfold, hdelta⟩ := iterateFrom_spec P hstep hinit
  rw [nil_append] at hfold hdelta
  exact ⟨dinfo, hiter, hfold, hdelta⟩

/-- The delta map is within the new map, it has all of each new range but none of
    the omitted ones, and a walk without the shortcut gives the same map. -/
theorem ndzComputeDeltaSigmap_spec {hashlen : Nat} {ondz nndz : NdzFile}
    {omap nmap : NdzRangemap NdzHashdata} (ho : ondz.hashmap = some omap)
    (hn : nndz.hashmap = some nmap) (hoinv : omap.Inv) (hninv : nmap.Inv)
    (hohash : HasHashes hashlen omap.ranges) (hnhash : HasHashes hashlen nmap.ranges)
    (hok : nndz.RelocsOk) :
    ∃ dmap, ndzComputeDeltaSigmap ondz nndz = .ok (some dmap) ∧ dmap.Inv ∧
      (∀ a, dmap.get a ≠ none → nmap.get a ≠ none) ∧
      (∀ range ∈ nmap.ranges, ∀ a, In a range →
        dmap.get a = if Omitted omap.ranges nndz range then none else some none) ∧
      ∃ dinfo, ndzRangemapIterate nmap (compdelta false nndz)
          { omap := omap, dmap := ndzRangemapInit nmap.loaddr nmap.hiaddr, omapdone := false } =
            .ok dinfo ∧ dinfo.dmap = dmap := by
  obtain ⟨dinfo, hiter, hfold, hdelta⟩ :=
    iterate_compdelta true hoinv hninv hohash hnhash hok
  obtain ⟨dinfo', hiter', hfold', _⟩ :=
    iterate_compdelta false hoinv hninv hohash hnhash hok
  refine ⟨dinfo.dmap, ?_, hdelta.inv, ?_, ?_, dinfo', hiter', ?_⟩
  · unfold ndzComputeDeltaSigmap
    simp only [ho, hn]
    rw [← compdelta_true, hiter]
    rfl
  · intro a hne
    rw [hdelta.get] at hne
    split at hne
    · next h =>
      obtain ⟨r, hr, hin, _⟩ := h
      intro hnone
      exact get_eq_none_iff.mp hnone r hr hin
    · exact absurd rfl hne
  · intro range hrange a hin
    rw [hdelta.get]
    have hiff : (∃ r ∈ nmap.ranges, In a r ∧ ¬ Omitted omap.ranges nndz r) ↔ ¬ Omitted omap.ranges nndz range := by
      constructor
      · rintro ⟨r, hr, hin', hnot⟩
        rwa [hninv.sorted.unique hrange hr hin hin']
      · intro hnot
        exact ⟨range, hrange, hin, hnot⟩
    simp only [hiff, ite_not]
  · rw [hfold'] at hfold
    exact Except.ok.inj hfold

def twoRanges (hash hash' : Byte) : NdzRangemap NdzHashdata where
  ranges := [⟨0, 9, some ⟨0, 1, [hash]⟩⟩, ⟨20, 29, some ⟨0, 1, [hash']⟩⟩]
  hint := 0
  loaddr := 0
  hiaddr := 100
  gen := 1
  entries := 2
  sectors := 20

/-- A file without relocations. -/
def signed (map : NdzRangemap NdzHashdata) : NdzFile :=
  { sectsize := SECSIZE, relocdata := none, reloclo := NDZ_HIADDR, relochi := NDZ_LOADDR,
    hashmap := some map }

theorem inv_twoRanges (hash hash' : Byte) : (twoRanges hash hash').Inv where
  sorted := ⟨by simp [twoRanges], by simp [twoRanges]⟩
  within := by simp [twoRanges]
  hiaddr := by
    show (100 : Nat) < 2 ^ 64
    decide
  entries := rfl
  sectors := rfl
  sectors_lt := by
    show (20 : Nat) < 2 ^ 64
    decide

/-- The first range is the same in both files, the second is not. -/
theorem ndzComputeDeltaSigmap_spec_two :
    ∃ dmap, ndzComputeDeltaSigmap (signed (twoRanges 1 2)) (signed (twoRanges 1 3)) =
        .ok (some dmap) ∧ dmap.Inv ∧ dmap.get 5 = none ∧ dmap.get 25 = some none := by
  have hhashes : ∀ hash hash', HasHashes 1 (twoRanges hash hash').ranges := by
    intro hash hash' r hr
    simp only [twoRanges, mem_cons, not_mem_nil, or_false] at hr
    rcases hr with rfl | rfl
    · exact ⟨_, rfl, rfl⟩
    · exact ⟨_, rfl, rfl⟩
  have hok : (signed (twoRanges 1 3)).RelocsOk :=
    ⟨List.Pairwise.nil, by simp [NdzFile.relocs, signed], by simp [NdzFile.relocs, signed]⟩
  have hold : (signed (twoRanges 1 2)).hashmap = some (twoRanges 1 2) := rfl
  have hnew : (signed (twoRanges 1 3)).hashmap = some (twoRanges 1 3) := rfl
  obtain ⟨dmap, hdelta, hinv, _, hget, _⟩ := ndzComputeDeltaSigmap_spec hold hnew
    (inv_twoRanges 1 2) (inv_twoRanges 1 3) (hhashes 1 2) (hhashes 1 3) hok
  refine ⟨dmap, hdelta, hinv, ?_, ?_⟩
  · rw [hget ⟨0, 9, some ⟨0, 1, [1]⟩⟩ (by simp [twoRanges]) 5 (by decide)]
    decide
  · rw [hget ⟨20, 29, some ⟨0, 1, [3]⟩⟩ (by simp [twoRanges]) 25 (by decide)]
    decide

end Emulab.Imagezip
