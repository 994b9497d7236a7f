import Emulab.Imagezip.RangeWalk

/-! # The overlay of a delta image on its base

  The ranges of the base are walked, along with those of the delta, and the
  ranges of the new image are added in ascending order. Where both have an
  address, the delta is its source.
-/

namespace Emulab.Imagezip

open MachineInt IntervalMap List Option

/-! ## Section 1: The walk over the base -/

structure MapData where
  frombase : Bool
  chunkno : Nat
deriving DecidableEq, Repr

/-- The range maps of image files have the number of a chunk as their data. -/
def chunknoOf (data : Option Nat) : Nat := toUInt32 (data.getD 0)

/-- The state of the walk: the ranges of the delta that are left, and where the first of them begins now. -/
structure MergeState where
  dmapnext : List (NdzRange Nat)
  dmapaddr : Nat
  mmap : NdzRangemap MapData

def addmmrange (mmap : NdzRangemap MapData) (addr eaddr : Nat) (frombase : Bool) (chunkno : Nat) :
    Except Failure (NdzRangemap MapData) :=
  allocResult .error (ndzRangemapAlloc mmap addr (addU64 (subU64 eaddr addr) 1)
    (some { frombase := frombase, chunkno := chunkno }) false)

/-- Where the delta continues; the address is kept at the end of the list. -/
def nextAddr (next : List (NdzRange Nat)) (daddr : Nat) : Nat :=
  match next with
  | [] => daddr
  | drange :: _ => drange.start

/-- The first loop of `applydelta`: delta entries before the base entry. -/
def addBefore (baddr : Nat) : List (NdzRange Nat) → Nat → NdzRangemap MapData →
    Except Failure (List (NdzRange Nat) × Nat × NdzRangemap MapData)
  | [], daddr, mmap => .ok ([], daddr, mmap)
  | drange :: next, daddr, mmap =>
    if drange.last < baddr then do
      let mmap ← addmmrange mmap daddr drange.last false (chunknoOf drange.data)
      addBefore baddr next (nextAddr next daddr) mmap
    else
      .ok (drange :: next, daddr, mmap)

/-- The loop of `applydelta` over the base entry. Each round but the last one
    passes a delta entry or comes up to one. -/
def overlapLoop (beaddr : Nat) (bdata : Option Nat) : Nat → Nat → List (NdzRange Nat) → Nat →
    NdzRangemap MapData → Except Failure (List (NdzRange Nat) × Nat × NdzRangemap MapData)
  | 0, _, _, _, _ => .error .error
  | fuel + 1, baddr, drange, daddr, mmap =>
    if baddr ≤ beaddr then
      if baddr < daddr then
        -- base range
        if daddr ≤ beaddr then do
          let mmap ← addmmrange mmap baddr (subU64 daddr 1) true (chunknoOf bdata)
          overlapLoop beaddr bdata fuel daddr drange daddr mmap
        else do
          let mmap ← addmmrange mmap baddr beaddr true (chunknoOf bdata)
          overlapLoop beaddr bdata fuel (addU64 beaddr 1) drange daddr mmap
      else
        match drange with
        | [] => .error .assertion
        | drange :: next =>
          -- delta range
          if drange.last ≤ beaddr then do
            let mmap ← addmmrange mmap daddr drange.last false (chunknoOf drange.data)
            overlapLoop beaddr bdata fuel (addU64 drange.last 1) next (nextAddr next (addU64 beaddr 1)) mmap
          else do
            let mmap ← addmmrange mmap daddr beaddr false (chunknoOf drange.data)
            overlapLoop beaddr bdata fuel (addU64 beaddr 1) (drange :: next) (addU64 beaddr 1) mmap
    else
      .ok (drange, daddr, mmap)

/-- The last loop of `applydelta`: delta entries behind the final base entry. -/
def addRest : List (NdzRange Nat) → Nat → NdzRangemap MapData → Except Failure (Nat × NdzRangemap MapData)
  | [], daddr, mmap => .ok (daddr, mmap)
  | drange :: next, daddr, mmap => do
    let mmap ← addmmrange mmap daddr drange.last false (chunknoOf drange.data)
    addRest next (nextAddr next daddr) mmap

/-- The part of `applydelta` for the base entry itself. -/
def addBase (brange : NdzRange Nat) (drange : List (NdzRange Nat)) (daddr : Nat) (mmap : NdzRangemap MapData) :
    Except Failure (List (NdzRange Nat) × Nat × NdzRangemap MapData) :=
  match drange with
  | [] => do
    let mmap ← addmmrange mmap brange.start brange.last true (chunknoOf brange.data)
    return ([], daddr, mmap)
  | d :: next =>
    if daddr > brange.last then do
      -- no overlap with the next delta entry
      let mmap ← addmmrange mmap brange.start brange.last true (chunknoOf brange.data)
      return (d :: next, daddr, mmap)
    else if daddr < brange.start then do
      -- a portion of the delta entry is before the base entry
      assert (d.last ≥ brange.start)
      let mmap ← addmmrange mmap daddr (subU64 brange.start 1) false (chunknoOf d.data)
      overlapLoop brange.last brange.data (2 * (d :: next).length + 3) brange.start (d :: next) brange.start mmap
    else
      overlapLoop brange.last brange.data (2 * (d :: next).length + 3) brange.start (d :: next) daddr mmap

/-- For a range of the base, add it to the new map, with what the delta has up to its end. -/
def applydelta (brange : NdzRange Nat) (bnext : List (NdzRange Nat)) (state : MergeState) :
    Except Failure MergeState := do
  let daddr := if state.dmapnext.isEmpty then 0 else state.dmapaddr
  let (drange, daddr, mmap) ← addBefore brange.start state.dmapnext daddr state.mmap
  let (drange, daddr, mmap) ← addBase brange drange daddr mmap
  if bnext.isEmpty then
    -- the final base entry
    let (daddr, mmap) ← addRest drange daddr mmap
    return { dmapnext := [], dmapaddr := daddr, mmap := mmap }
  else
    return { dmapnext := drange, dmapaddr := daddr, mmap := mmap }

/-- The state that `main` begins with. -/
def mergeInit (delta : NdzRangemap Nat) : MergeState where
  dmapnext := delta.ranges
  dmapaddr := nextAddr delta.ranges 0
  mmap := ndzRangemapInit NDZ_LOADDR (NDZ_HIADDR - NDZ_LOADDR)

/-- The map of the new image, as `main` computes it. -/
def overlay (base delta : NdzRangemap Nat) : Except Failure (NdzRangemap MapData) := do
  let state ← ndzRangemapIterate base applydelta (mergeInit delta)
  return state.mmap

/-! ## Section 2: What the new map is to be -/

/-- The source of an address: the delta if it has the address, else the base. -/
def overlaid (base delta : NdzRangemap Nat) (a : Nat) : Option MapData :=
  match delta.get a with
  | some data => some { frombase := false, chunkno := chunknoOf data }
  | none => (base.get a).map fun data => { frombase := true, chunkno := chunknoOf data }

/-- The new map is right up to, but not including, an address, and ends there. -/
structure Merged (base delta : NdzRangemap Nat) (f : Nat) (mmap : NdzRangemap MapData) :
    Prop where
  inv : mmap.Inv
  bounds : mmap.loaddr = NDZ_LOADDR ∧ mmap.hiaddr = NDZ_HIADDR
  behind : ∀ r ∈ mmap.ranges, r.last < f
  get : ∀ a, a < f → mmap.get a = (overlaid base delta a).map some

variable {base delta : NdzRangemap Nat} {f : Nat} {mmap : NdzRangemap MapData}

/-- Where neither image has an address there is nothing to add. -/
theorem Merged.advance (h : Merged base delta f mmap) {f' : Nat} (hle : f ≤ f')
    (hnone : ∀ a, f ≤ a → a < f' → overlaid base delta a = none) : Merged base delta f' mmap := by
  refine ⟨h.inv, h.bounds, ?_, ?_⟩
  · intro r hr
    have := h.behind r hr
    omega
  · intro a ha
    by_cases hlt : a < f
    · exact h.get a hlt
    · rw [hnone a (by omega) ha]
      refine get_eq_none_iff.mpr fun r hr hin => ?_
      have := h.behind r hr
      have := hin.2
      omega

/-- A range of one source is added. -/
theorem Merged.add (h : Merged base delta f mmap) {addr eaddr : Nat} {frombase : Bool}
    {chunkno : Nat} (hle : f ≤ addr) (hrange : addr ≤ eaddr) (hlast : eaddr < NDZ_HIADDR)
    (hnone : ∀ a, f ≤ a → a < addr → overlaid base delta a = none) (hsome : ∀ a, addr ≤ a → a ≤ eaddr →
      overlaid base delta a = some { frombase := frombase, chunkno := chunkno }) :
    ∃ mmap', addmmrange mmap addr eaddr frombase chunkno = .ok mmap' ∧ Merged base delta (eaddr + 1) mmap' := by
  have h := h.advance hle hnone
  have hhi : NDZ_HIADDR = 2 ^ 64 - 1 := rfl
  have hsize : addU64 (subU64 eaddr addr) 1 = eaddr + 1 - addr := by
    rw [subU64_of_le hrange (by omega), addU64_of_lt (by omega)]
    omega
  have hsectors : mmap.sectors ≤ addr := by
    rw [h.inv.sectors]
    by_cases haddr : addr = 0
    · have hnil : mmap.ranges = [] := by
        rw [eq_nil_iff_forall_not_mem]
        intro r hr
        have := h.behind r hr
        omega
      rw [hnil, size_nil]
      exact Nat.zero_le _
    · have hsz : size mmap.ranges ≤ addr - 1 + 1 - 0 :=
        size_le h.inv.sorted (fun r _ => Nat.zero_le _) (fun r hr => by have := h.behind r hr; omega)
      omega
  obtain ⟨mmap', halloc, heff, _⟩ := ndzRangemapAlloc_behind h.inv addr (eaddr + 1 - addr)
    (some { frombase := frombase, chunkno := chunkno }) (by omega)
    (by rw [h.bounds.1]; exact Nat.zero_le _) (by rw [h.bounds.2]; omega) h.behind (by omega)
  have hbehind := heff.last_lt h.inv (by omega) h.behind
  refine ⟨mmap', ?_, heff.inv, ?_, ?_, ?_⟩
  · unfold addmmrange
    rw [hsize, halloc, allocResult_ok]
  · rw [heff.bounds.1, heff.bounds.2]
    exact h.bounds
  · intro r hr
    have := hbehind r hr
    omega
  · intro a ha
    rw [heff.success rfl]
    by_cases hin : addr ≤ a
    · rw [if_pos (by omega), hsome a hin (by omega)]
      rfl
    · rw [if_neg (by omega)]
      exact h.get a (by omega)

/-! ## Section 3: Where the walk is -/

/-- The walk is at an address: what is left of the delta begins at `daddr`. -/
structure DeltaAt (delta : NdzRangemap Nat) (f : Nat) (drange : List (NdzRange Nat))
    (daddr : Nat) : Prop where
  split : ∃ dpre, delta.ranges = dpre ++ drange ∧ ∀ r ∈ dpre, r.last < f
  addr : ∀ d ∈ drange.head?, d.start ≤ daddr ∧ daddr ≤ d.last ∧ f ≤ daddr ∧ (daddr = d.start ∨ daddr = f)

/-- The walk is at an address: what is left of the base begins with `brange`. -/
def BaseAt (base : NdzRangemap Nat) (f : Nat) (brange : List (NdzRange Nat)) : Prop :=
  (∃ bpre, base.ranges = bpre ++ brange ∧ ∀ r ∈ bpre, r.last < f) ∧ ∀ b ∈ brange.head?, f ≤ b.start

theorem DeltaAt.mem {drange : List (NdzRange Nat)} {daddr : Nat}
    (h : DeltaAt delta f drange daddr) {r : NdzRange Nat} (hr : r ∈ drange) : r ∈ delta.ranges := by
  obtain ⟨dpre, hsplit, _⟩ := h.split
  rw [hsplit]
  exact mem_append_right _ hr

theorem BaseAt.mono {brange : List (NdzRange Nat)} (h : BaseAt base f brange) {f' : Nat}
    (hle : f ≤ f') (hstart : ∀ b ∈ brange.head?, f' ≤ b.start) : BaseAt base f' brange := by
  obtain ⟨⟨bpre, hsplit, hpre⟩, _⟩ := h
  exact ⟨⟨bpre, hsplit, fun r hr => (hpre r hr).trans_le hle⟩, hstart⟩

theorem BaseAt.mem {brange : List (NdzRange Nat)} (h : BaseAt base f brange) {r : NdzRange Nat}
    (hr : r ∈ brange) : r ∈ base.ranges := by
  obtain ⟨⟨bpre, hsplit, _⟩, _⟩ := h
  rw [hsplit]
  exact mem_append_right _ hr

theorem overlaid_of_delta {a : Nat} {data : Option Nat} (h : delta.get a = some data) :
    overlaid base delta a = some { frombase := false, chunkno := chunknoOf data } := by
  unfold overlaid
  rw [h]

theorem overlaid_of_base {a : Nat} {data : Option Nat} (h : delta.get a = none) (hb : base.get a = some data) :
    overlaid base delta a = some { frombase := true, chunkno := chunknoOf data } := by
  unfold overlaid
  rw [h, hb]
  rfl

theorem overlaid_none {a : Nat} (h : delta.get a = none) (hb : base.get a = none) :
    overlaid base delta a = none := by
  unfold overlaid
  rw [h, hb]
  rfl

/-- Both maps are well formed, and their addresses are numbers of sectors, which
    are smaller than the highest address. -/
structure Images (base delta : NdzRangemap Nat) : Prop where
  baseInv : base.Inv
  deltaInv : delta.Inv
  baseLast : ∀ r ∈ base.ranges, r.last < NDZ_HIADDR
  deltaLast : ∀ r ∈ delta.ranges, r.last < NDZ_HIADDR

section At

variable (hi : Images base delta) {f' daddr : Nat} {brange d : NdzRange Nat}
  {drange next bnext : List (NdzRange Nat)}

include hi

theorem Images.delta_sorted (h : DeltaAt delta f drange daddr) : Sorted drange := by
  obtain ⟨dpre, hsplit, _⟩ := h.split
  have hs := hi.deltaInv.sorted
  rw [hsplit] at hs
  exact (sorted_append.mp hs).2.1

/-- The delta has nothing up to its next address. -/
theorem Images.delta_none (h : DeltaAt delta f drange daddr) {a : Nat} (hf : f ≤ a)
    (ha : drange = [] ∨ a < daddr) : delta.get a = none := by
  obtain ⟨dpre, hsplit, hpre⟩ := h.split
  refine get_eq_none_iff.mpr fun r hr hin => ?_
  rw [hsplit] at hr
  rcases mem_append.mp hr with hr | hr
  · have := hpre r hr
    have := hin.2
    omega
  · rcases ha with rfl | ha
    · cases hr
    · -- the first range left begins at the address or is passed up to it
      cases drange with
      | nil => cases hr
      | cons d next =>
        obtain ⟨_, _, _, haddr⟩ := h.addr d rfl
        have hstart : d.start ≤ r.start := by
          rcases mem_cons.mp hr with rfl | hr
          · exact le_rfl
          · have hs := sorted_cons.mp (hi.delta_sorted h)
            have := hs.2.1 r hr
            omega
        have := hin.1
        omega

theorem Images.delta_some (h : DeltaAt delta f (d :: next) daddr) {a : Nat} (ha : daddr ≤ a)
    (hlast : a ≤ d.last) : delta.get a = some d.data := by
  obtain ⟨hstart, _, _, _⟩ := h.addr d rfl
  exact (get_eq_some_iff hi.deltaInv.sorted).mpr ⟨d, h.mem mem_cons_self, ⟨by omega, hlast⟩, rfl⟩

theorem Images.delta_next (h : DeltaAt delta f (d :: next) daddr) (addr : Nat) :
    DeltaAt delta (d.last + 1) next (nextAddr next addr) := by
  obtain ⟨dpre, hsplit, hpre⟩ := h.split
  have hs := sorted_cons.mp (hi.delta_sorted h)
  refine ⟨⟨dpre ++ [d], by rw [hsplit, append_cons], ?_⟩, ?_⟩
  · intro r hr
    rcases mem_append.mp hr with hr | hr
    · have hall := hi.deltaInv.sorted
      rw [hsplit] at hall
      have := (sorted_append.mp hall).2.2 r hr d mem_cons_self
      omega
    · rw [mem_singleton.mp hr]
      exact Nat.lt_succ_self _
  · intro d' hd'
    cases next with
    | nil => cases hd'
    | cons d'' next =>
      obtain rfl : d'' = d' := some.inj hd'
      have := hs.2.1 d'' mem_cons_self
      have hle := hs.2.2.nonempty d'' mem_cons_self
      exact ⟨le_rfl, hle, this, .inl rfl⟩

theorem Images.base_none (h : BaseAt base f (brange :: bnext)) {a : Nat} (hf : f ≤ a)
    (ha : a < brange.start) : base.get a = none := by
  obtain ⟨⟨bpre, hsplit, hpre⟩, _⟩ := h
  have hs := hi.baseInv.sorted
  rw [hsplit] at hs
  refine get_eq_none_iff.mpr fun r hr hin => ?_
  rw [hsplit] at hr
  have h1 := hin.1
  have h2 := hin.2
  rcases mem_append.mp hr with hr | hr
  · have := hpre r hr
    omega
  · rcases mem_cons.mp hr with rfl | hr
    · omega
    · have hrest := sorted_cons.mp (sorted_append.mp hs).2.1
      have := hrest.2.1 r hr
      have := hrest.1
      omega

theorem Images.base_some (h : BaseAt base f (brange :: bnext)) {a : Nat} (ha : brange.start ≤ a)
    (hlast : a ≤ brange.last) : base.get a = some brange.data := by
  obtain ⟨⟨bpre, hsplit, _⟩, _⟩ := h
  exact (get_eq_some_iff hi.baseInv.sorted).mpr
    ⟨brange, hsplit ▸ mem_append_right _ mem_cons_self, ⟨ha, hlast⟩, rfl⟩

theorem Images.base_next (h : BaseAt base f (brange :: bnext)) : BaseAt base (brange.last + 1) bnext := by
  obtain ⟨⟨bpre, hsplit, _⟩, _⟩ := h
  have hs := hi.baseInv.sorted
  rw [hsplit] at hs
  obtain ⟨_, hrest, hpre⟩ := sorted_append.mp hs
  refine ⟨⟨bpre ++ [brange], by rw [hsplit, append_cons], ?_⟩, ?_⟩
  · intro r hr
    have hlast := (sorted_cons.mp hrest).1
    rcases mem_append.mp hr with hr | hr
    · have := hpre r hr brange mem_cons_self
      omega
    · rw [mem_singleton.mp hr]
      exact Nat.lt_succ_self _
  · intro b hb
    exact (sorted_cons.mp hrest).2.1 b (mem_of_mem_head? hb)

/-! ## Section 4: The loops -/

theorem addBefore_spec (hb : BaseAt base f (brange :: bnext)) (hm : Merged base delta f mmap)
    (hd : DeltaAt delta f drange daddr) :
    ∃ drange' daddr' mmap' f', addBefore brange.start drange daddr mmap =
        .ok (drange', daddr', mmap') ∧ BaseAt base f' (brange :: bnext) ∧
      Merged base delta f' mmap' ∧ DeltaAt delta f' drange' daddr' ∧
      ∀ d ∈ drange'.head?, brange.start ≤ d.last := by
  induction drange generalizing f daddr mmap with
  | nil => exact ⟨[], daddr, mmap, f, rfl, hb, hm, hd, by simp⟩
  | cons d next ih =>
    unfold addBefore
    by_cases hlt : d.last < brange.start
    · obtain ⟨_, hle, hf, _⟩ := hd.addr d rfl
      obtain ⟨mmap₁, hadd, hm₁⟩ := hm.add hf hle (hi.deltaLast d (hd.mem mem_cons_self))
        (fun a h1 h2 => overlaid_none (hi.delta_none hd h1 (.inr h2)) (hi.base_none hb h1 (by omega)))
        (fun a h1 h2 => overlaid_of_delta (hi.delta_some hd h1 h2))
      have hb₁ : BaseAt base (d.last + 1) (brange :: bnext) := by
        apply hb.mono (by omega)
        intro b hmem
        obtain rfl : brange = b := some.inj hmem
        exact hlt
      obtain ⟨drange', daddr', mmap', f', hrest, h⟩ := ih hb₁ hm₁ (hi.delta_next hd daddr)
      refine ⟨drange', daddr', mmap', f', ?_, h⟩
      rw [if_pos hlt, hadd]
      exact hrest
    · refine ⟨d :: next, daddr, mmap, f, by rw [if_neg hlt], hb, hm, hd, ?_⟩
      intro d' hd'
      obtain rfl : d = d' := some.inj hd'
      omega

theorem overlapLoop_spec {beaddr baddr fuel : Nat} {bdata : Option Nat} (hhi : beaddr < NDZ_HIADDR)
    (hbase : ∀ a, baddr ≤ a → a ≤ beaddr → base.get a = some bdata) (hend : baddr ≤ beaddr + 1)
    (hm : Merged base delta baddr mmap) (hd : DeltaAt delta baddr drange daddr)
    (hnil : drange = [] → beaddr < daddr) (hfuel : 0 < fuel) (hrounds : baddr ≤ beaddr →
      2 * drange.length + (if baddr < daddr then 1 else 0) + 1 < fuel) :
    ∃ drange' daddr' mmap', overlapLoop beaddr bdata fuel baddr drange daddr mmap =
        .ok (drange', daddr', mmap') ∧ Merged base delta (beaddr + 1) mmap' ∧
      DeltaAt delta (beaddr + 1) drange' daddr' := by
  have hhi64 : NDZ_HIADDR = 2 ^ 64 - 1 := rfl
  induction fuel generalizing baddr drange daddr mmap with
  | zero => omega
  | succ fuel ih =>
    unfold overlapLoop
    by_cases hle : baddr ≤ beaddr
    · have hrounds := hrounds hle
      have hsucc : addU64 beaddr 1 = beaddr + 1 := addU64_of_lt (by omega)
      rw [if_pos hle]
      by_cases hlt : baddr < daddr
      · rw [if_pos hlt]
        rw [if_pos hlt] at hrounds
        have hdnone : ∀ a, baddr ≤ a → a < daddr → delta.get a = none := fun a h1 h2 =>
          hi.delta_none hd h1 (.inr h2)
        by_cases hover : daddr ≤ beaddr
        · -- the base up to the delta entry
          have hpred : subU64 daddr 1 = daddr - 1 := subU64_of_le (by omega) (by omega)
          obtain ⟨mmap₁, hadd, hm₁⟩ := hm.add le_rfl (by omega : baddr ≤ daddr - 1) (by omega)
            (fun a h1 h2 => absurd h1 (by omega))
            (fun a h1 h2 => overlaid_of_base (hdnone a h1 (by omega)) (hbase a h1 (by omega)))
          rw [show daddr - 1 + 1 = daddr by omega] at hm₁
          have hd₁ : DeltaAt delta daddr drange daddr := by
            obtain ⟨dpre, hsplit, hpre⟩ := hd.split
            refine ⟨⟨dpre, hsplit, fun r hr => (hpre r hr).trans hlt⟩, ?_⟩
            intro d hmem
            obtain ⟨h1, h2, _, _⟩ := hd.addr d hmem
            exact ⟨h1, h2, le_rfl, .inr rfl⟩
          obtain ⟨drange', daddr', mmap', hrest, h⟩ := ih (fun a h1 h2 => hbase a (by omega) h2)
            (by omega) hm₁ hd₁ hnil (by omega) (fun _ => by rw [if_neg (lt_irrefl _)]; omega)
          refine ⟨drange', daddr', mmap', ?_, h⟩
          rw [if_pos hover, hpred, hadd]
          exact hrest
        · -- the rest of the base
          obtain ⟨mmap₁, hadd, hm₁⟩ := hm.add le_rfl hle hhi
            (fun a h1 h2 => absurd h1 (by omega))
            (fun a h1 h2 => overlaid_of_base (hdnone a h1 (by omega)) (hbase a h1 h2))
          have hd₁ : DeltaAt delta (beaddr + 1) drange daddr := by
            obtain ⟨dpre, hsplit, hpre⟩ := hd.split
            refine ⟨⟨dpre, hsplit, fun r hr => (hpre r hr).trans_le hend⟩, ?_⟩
            intro d hmem
            obtain ⟨h1, h2, _, h3⟩ := hd.addr d hmem
            exact ⟨h1, h2, by omega, .inl (by omega)⟩
          obtain ⟨drange', daddr', mmap', hrest, h⟩ := ih (fun a h1 h2 => hbase a (by omega) h2)
            le_rfl hm₁ hd₁ hnil (by omega) (fun h => absurd h (by omega))
          refine ⟨drange', daddr', mmap', ?_, h⟩
          rw [if_neg hover, hadd, hsucc]
          exact hrest
      · rw [if_neg hlt]
        rw [if_neg hlt] at hrounds
        cases drange with
        | nil =>
          have := hnil rfl
          omega
        | cons d next =>
          obtain ⟨hstart, hlast, hf, _⟩ := hd.addr d rfl
          obtain rfl : baddr = daddr := by omega
          have hdsome : ∀ a, baddr ≤ a → a ≤ d.last → overlaid base delta a =
              some { frombase := false, chunkno := chunknoOf d.data } := fun a h1 h2 =>
            overlaid_of_delta (hi.delta_some hd h1 h2)
          rw [length_cons] at hrounds
          by_cases hover : d.last ≤ beaddr
          · -- the delta entry ends within the base
            obtain ⟨mmap₁, hadd, hm₁⟩ := hm.add le_rfl hlast
              (hi.deltaLast d (hd.mem mem_cons_self))
              (fun a h1 h2 => absurd h1 (by omega)) hdsome
            obtain ⟨drange', daddr', mmap', hrest, h⟩ := ih
              (fun a h1 h2 => hbase a (by omega) h2) (by omega) hm₁
              (hi.delta_next hd (addU64 beaddr 1))
              (by rintro rfl; show beaddr < addU64 beaddr 1; omega) (by omega)
              (fun _ => by split <;> omega)
            refine ⟨drange', daddr', mmap', ?_, h⟩
            simp only [if_pos hover, hadd, addU64_of_lt (by omega : d.last + 1 < 2 ^ 64)]
            exact hrest
          · -- the delta entry covers the rest of the base
            obtain ⟨mmap₁, hadd, hm₁⟩ := hm.add le_rfl hle hhi
              (fun a h1 h2 => absurd h1 (by omega)) (fun a h1 h2 => hdsome a h1 (by omega))
            have hd₁ : DeltaAt delta (beaddr + 1) (d :: next) (beaddr + 1) := by
              obtain ⟨dpre, hsplit, hpre⟩ := hd.split
              refine ⟨⟨dpre, hsplit, fun r hr => (hpre r hr).trans_le hend⟩, ?_⟩
              intro d' hmem
              obtain rfl : d = d' := some.inj hmem
              exact ⟨by omega, by omega, le_rfl, .inr rfl⟩
            obtain ⟨drange', daddr', mmap', hrest, h⟩ := ih
              (fun a h1 h2 => hbase a (by omega) h2) le_rfl hm₁ hd₁ (by simp) (by omega)
              (fun h => absurd h (by omega))
            refine ⟨drange', daddr', mmap', ?_, h⟩
            simp only [if_neg hover, hadd, hsucc]
            exact hrest
    · obtain rfl : baddr = beaddr + 1 := by omega
      exact ⟨drange, daddr, mmap, by rw [if_neg hle], hm, hd⟩

theorem addWhole_spec (hb : BaseAt base f (brange :: bnext)) (hm : Merged base delta f mmap)
    (hd : DeltaAt delta f drange daddr) (hover : drange = [] ∨ brange.last < daddr) :
    ∃ mmap', addmmrange mmap brange.start brange.last true (chunknoOf brange.data) = .ok mmap' ∧
      Merged base delta (brange.last + 1) mmap' ∧
      DeltaAt delta (brange.last + 1) drange daddr := by
  have hf : f ≤ brange.start := hb.2 brange rfl
  have hmem := hb.mem mem_cons_self
  have hle := hi.baseInv.sorted.nonempty brange hmem
  have hdnone : ∀ a, f ≤ a → a ≤ brange.last → delta.get a = none := by
    intro a h1 h2
    exact hi.delta_none hd h1 (hover.imp_right fun h => by omega)
  obtain ⟨mmap', hadd, hm'⟩ := hm.add hf hle (hi.baseLast brange hmem)
    (fun a h1 h2 => overlaid_none (hdnone a h1 (by omega)) (hi.base_none hb h1 h2))
    (fun a h1 h2 => overlaid_of_base (hdnone a (by omega) h2) (hi.base_some hb h1 h2))
  refine ⟨mmap', hadd, hm', ?_, ?_⟩
  · obtain ⟨dpre, hsplit, hpre⟩ := hd.split
    exact ⟨dpre, hsplit, fun r hr => (hpre r hr).trans_le (by omega)⟩
  · intro d hmem
    obtain ⟨h1, h2, _, h3⟩ := hd.addr d hmem
    rcases hover with rfl | hover
    · cases hmem
    · exact ⟨h1, h2, hover, .inl (by omega)⟩

theorem addBase_spec (hb : BaseAt base f (brange :: bnext)) (hm : Merged base delta f mmap)
    (hd : DeltaAt delta f drange daddr) (hlast : ∀ d ∈ drange.head?, brange.start ≤ d.last) :
    ∃ drange' daddr' mmap', addBase brange drange daddr mmap = .ok (drange', daddr', mmap') ∧
      Merged base delta (brange.last + 1) mmap' ∧
      DeltaAt delta (brange.last + 1) drange' daddr' := by
  have hmem := hb.mem mem_cons_self
  have hle := hi.baseInv.sorted.nonempty brange hmem
  have hhi := hi.baseLast brange hmem
  have hhi64 : NDZ_HIADDR = 2 ^ 64 - 1 := rfl
  have hf : f ≤ brange.start := hb.2 brange rfl
  unfold addBase
  cases drange with
  | nil =>
    obtain ⟨mmap', hadd, h⟩ := addWhole_spec hi hb hm hd (.inl rfl)
    refine ⟨[], daddr, mmap', ?_, h⟩
    simp only [hadd]
    rfl
  | cons d next =>
    have hlast := hlast d rfl
    obtain ⟨hstart, hdlast, hfd, hcont⟩ := hd.addr d rfl
    by_cases hover : daddr > brange.last
    · obtain ⟨mmap', hadd, h⟩ := addWhole_spec hi hb hm hd (.inr hover)
      refine ⟨d :: next, daddr, mmap', ?_, h⟩
      simp only [if_pos hover, hadd]
      rfl
    · by_cases hbefore : daddr < brange.start
      · have hpred : subU64 brange.start 1 = brange.start - 1 :=
          subU64_of_le (by omega) (by omega)
        obtain ⟨mmap₁, hadd, hm₁⟩ := hm.add hfd (by omega : daddr ≤ brange.start - 1) (by omega)
          (fun a h1 h2 => overlaid_none (hi.delta_none hd h1 (.inr h2)) (hi.base_none hb h1 (by omega)))
          (fun a h1 h2 => overlaid_of_delta (hi.delta_some hd h1 (by omega)))
        rw [show brange.start - 1 + 1 = brange.start by omega] at hm₁
        have hd₁ : DeltaAt delta brange.start (d :: next) brange.start := by
          obtain ⟨dpre, hsplit, hpre⟩ := hd.split
          refine ⟨⟨dpre, hsplit, fun r hr => (hpre r hr).trans_le hf⟩, ?_⟩
          intro d' hmem
          obtain rfl : d = d' := some.inj hmem
          exact ⟨by omega, hlast, le_rfl, .inr rfl⟩
        obtain ⟨drange', daddr', mmap', hloop, h⟩ := overlapLoop_spec hi hhi
          (fun a h1 h2 => hi.base_some hb h1 h2) (by omega) hm₁ hd₁ (by simp)
          (by omega : 0 < 2 * (d :: next).length + 3)
          (fun _ => by rw [if_neg (lt_irrefl _)]; omega)
        refine ⟨drange', daddr', mmap', ?_, h⟩
        simp only [if_neg hover, if_pos hbefore, ge_iff_le, hlast, decide_true, assert_true, hpred, hadd]
        exact hloop
      · have hm₁ := hm.advance hf fun a h1 h2 =>
          overlaid_none (hi.delta_none hd h1 (.inr (by omega))) (hi.base_none hb h1 h2)
        have hd₁ : DeltaAt delta brange.start (d :: next) daddr := by
          obtain ⟨dpre, hsplit, hpre⟩ := hd.split
          refine ⟨⟨dpre, hsplit, fun r hr => (hpre r hr).trans_le hf⟩, ?_⟩
          intro d' hmem
          obtain rfl : d = d' := some.inj hmem
          exact ⟨hstart, hdlast, by omega, hcont.imp_right fun h => by omega⟩
        obtain ⟨drange', daddr', mmap', hloop, h⟩ := overlapLoop_spec hi hhi
          (fun a h1 h2 => hi.base_some hb h1 h2) (by omega) hm₁ hd₁ (by simp)
          (by omega : 0 < 2 * (d :: next).length + 3) (fun _ => by split <;> omega)
        refine ⟨drange', daddr', mmap', ?_, h⟩
        simp only [if_neg hover, if_neg hbefore]
        exact hloop

theorem addRest_spec (hbnone : ∀ a, f ≤ a → base.get a = none) (hm : Merged base delta f mmap)
    (hd : DeltaAt delta f drange daddr) :
    ∃ daddr' mmap' f', addRest drange daddr mmap = .ok (daddr', mmap') ∧
      Merged base delta f' mmap' ∧ ∀ a, f' ≤ a → overlaid base delta a = none := by
  induction drange generalizing f daddr mmap with
  | nil =>
    refine ⟨daddr, mmap, f, rfl, hm, ?_⟩
    intro a ha
    exact overlaid_none (hi.delta_none hd ha (.inl rfl)) (hbnone a ha)
  | cons d next ih =>
    obtain ⟨_, hle, hf, _⟩ := hd.addr d rfl
    obtain ⟨mmap₁, hadd, hm₁⟩ := hm.add hf hle (hi.deltaLast d (hd.mem mem_cons_self))
      (fun a h1 h2 => overlaid_none (hi.delta_none hd h1 (.inr h2)) (hbnone a h1))
      (fun a h1 h2 => overlaid_of_delta (hi.delta_some hd h1 h2))
    obtain ⟨daddr', mmap', f', hrest, h⟩ := ih (fun a ha => hbnone a (by omega)) hm₁
      (hi.delta_next hd daddr)
    refine ⟨daddr', mmap', f', ?_, h⟩
    unfold addRest
    rw [hadd]
    exact hrest

/-! ## Section 5: The overlay -/

/-- Up to the end of a base entry both loops do what they are to do. -/
theorem addBefore_addBase (hb : BaseAt base f (brange :: bnext))
    (hm : Merged base delta f mmap) (hd : DeltaAt delta f drange daddr) :
    ∃ drange₁ daddr₁ mmap₁ drange' daddr' mmap',
      addBefore brange.start drange (if drange.isEmpty then 0 else daddr) mmap = .ok (drange₁, daddr₁, mmap₁) ∧
      addBase brange drange₁ daddr₁ mmap₁ = .ok (drange', daddr', mmap') ∧
      Merged base delta (brange.last + 1) mmap' ∧
      DeltaAt delta (brange.last + 1) drange' daddr' := by
  have hd₀ : DeltaAt delta f drange (if drange.isEmpty then 0 else daddr) := by
    cases drange with
    | nil => exact ⟨hd.split, by simp⟩
    | cons d next => exact hd
  obtain ⟨drange₁, daddr₁, mmap₁, f', hbefore, hb₁, hm₁, hd₁, hlast⟩ := addBefore_spec hi hb hm hd₀
  obtain ⟨drange', daddr', mmap', hbase, h⟩ := addBase_spec hi hb₁ hm₁ hd₁ hlast
  exact ⟨drange₁, daddr₁, mmap₁, drange', daddr', mmap', hbefore, hbase, h⟩

/-- A base entry that is not the final one. -/
theorem applydelta_spec {state : MergeState} (hne : bnext ≠ [])
    (hb : BaseAt base f (brange :: bnext)) (hm : Merged base delta f state.mmap)
    (hd : DeltaAt delta f state.dmapnext state.dmapaddr) :
    ∃ state', applydelta brange bnext state = .ok state' ∧ Merged base delta (brange.last + 1) state'.mmap ∧
      DeltaAt delta (brange.last + 1) state'.dmapnext state'.dmapaddr := by
  obtain ⟨drange₁, daddr₁, mmap₁, drange', daddr', mmap', hbefore, hbase, hm', hd'⟩ :=
    addBefore_addBase hi hb hm hd
  have hempty : bnext.isEmpty = false := by simpa using hne
  refine ⟨{ dmapnext := drange', dmapaddr := daddr', mmap := mmap' }, ?_, hm', hd'⟩
  unfold applydelta
  simp only [hbefore]
  show addBase brange drange₁ daddr₁ mmap₁ >>= _ = _
  rw [hbase, hempty]
  rfl

theorem applydelta_final {state : MergeState} (hb : BaseAt base f [brange])
    (hm : Merged base delta f state.mmap) (hd : DeltaAt delta f state.dmapnext state.dmapaddr) :
    ∃ state' f', applydelta brange [] state = .ok state' ∧
      Merged base delta f' state'.mmap ∧ ∀ a, f' ≤ a → overlaid base delta a = none := by
  obtain ⟨drange₁, daddr₁, mmap₁, drange', daddr', mmap', hbefore, hbase, hm', hd'⟩ :=
    addBefore_addBase hi hb hm hd
  have hbnone : ∀ a, brange.last + 1 ≤ a → base.get a = none := by
    obtain ⟨bpre, hsplit, hpre⟩ := (hi.base_next hb).1
    intro a ha
    refine get_eq_none_iff.mpr fun r hr hin => ?_
    rw [hsplit, append_nil] at hr
    have := hpre r hr
    have := hin.2
    omega
  obtain ⟨daddr₂, mmap₂, f', hrest, hm₂, hnone⟩ := addRest_spec hi hbnone hm' hd'
  refine ⟨{ dmapnext := [], dmapaddr := daddr₂, mmap := mmap₂ }, f', ?_, hm₂, hnone⟩
  unfold applydelta
  simp only [hbefore]
  show addBase brange drange₁ daddr₁ mmap₁ >>= _ = _
  rw [hbase]
  show addRest drange' daddr' mmap' >>= _ = _
  rw [hrest]
  rfl

/-- The overlay does not fail. In the new map every address of the delta has the delta as its source, every
    other address of the base has the base, and no other address is mapped. -/
theorem overlay_spec (hne : base.ranges ≠ []) : ∃ mmap, overlay base delta = .ok mmap ∧ mmap.Inv ∧
      ∀ a, mmap.get a = (overlaid base delta a).map some := by
  let P : List (NdzRange Nat) → List (NdzRange Nat) → MergeState → Prop := fun pre brange state =>
    pre ++ brange = base.ranges ∧
    (brange ≠ [] → ∃ f, BaseAt base f brange ∧ Merged base delta f state.mmap ∧
      DeltaAt delta f state.dmapnext state.dmapaddr) ∧
    (brange = [] → ∃ f, Merged base delta f state.mmap ∧ ∀ a, f ≤ a → overlaid base delta a = none)
  have hstep : ∀ pre brange bnext state, P pre (brange :: bnext) state →
      ∃ state', applydelta brange bnext state = .ok state' ∧ P (pre ++ [brange]) bnext state' := by
    intro pre brange bnext state hP
    obtain ⟨hsplit, hP, _⟩ := hP
    rw [append_cons] at hsplit
    obtain ⟨f, hb, hm, hd⟩ := hP (by simp)
    by_cases hnil : bnext = []
    · subst hnil
      obtain ⟨state', f', happly, hm', hnone⟩ := applydelta_final hi hb hm hd
      exact ⟨state', happly, hsplit, fun h => absurd rfl h, fun _ => ⟨f', hm', hnone⟩⟩
    · obtain ⟨state', happly, hm', hd'⟩ := applydelta_spec hi hnil hb hm hd
      exact ⟨state', happly, hsplit, fun _ => ⟨_, hi.base_next hb, hm', hd'⟩,
        fun h => absurd h hnil⟩
  have hinit : P [] base.ranges (mergeInit delta) := by
    refine ⟨rfl, fun _ => ⟨0, ⟨⟨[], rfl, by simp⟩, by simp⟩, ?_, ⟨⟨[], rfl, by simp⟩, ?_⟩⟩,
      fun h => absurd h hne⟩
    · exact ⟨inv_ndzRangemapInit (by decide), ⟨rfl, rfl⟩, fun r hr => absurd hr not_mem_nil,
        fun a ha => absurd ha (Nat.not_lt_zero a)⟩
    · intro d hmem
      have hmem : d ∈ delta.ranges.head? := hmem
      have hle := hi.deltaInv.sorted.nonempty d (mem_of_mem_head? hmem)
      have haddr : nextAddr delta.ranges 0 = d.start := by
        obtain ⟨next, hr⟩ := List.head?_eq_some_iff.mp hmem
        rw [hr]
        rfl
      exact ⟨haddr.ge, haddr.trans_le hle, Nat.zero_le _, .inl haddr⟩
  obtain ⟨state, hiter, hP⟩ := iterateFrom_spec P hstep hinit
  obtain ⟨f, hm, hnone⟩ := hP.2.2 rfl
  refine ⟨state.mmap, ?_, hm.inv, ?_⟩
  · unfold overlay
    have hiter : ndzRangemapIterate base applydelta _ = .ok state := hiter
    rw [hiter]
    rfl
  · intro a
    by_cases ha : a < f
    · exact hm.get a ha
    · rw [hnone a (by omega)]
      refine get_eq_none_iff.mpr fun r hr hin => ?_
      have := hm.behind r hr
      have := hin.2
      omega

end At

def oneRange (start last chunkno : Nat) : NdzRangemap Nat where
  ranges := [⟨start, last, some chunkno⟩]
  hint := 0
  loaddr := NDZ_LOADDR
  hiaddr := NDZ_HIADDR - NDZ_LOADDR
  gen := 1
  entries := 1
  sectors := last + 1 - start

theorem inv_oneRange {start last : Nat} (hle : start ≤ last) (hlast : last < NDZ_HIADDR)
    (chunkno : Nat) : (oneRange start last chunkno).Inv where
  sorted := ⟨by simpa [oneRange] using hle, by simp [oneRange]⟩
  within := by
    intro r hr
    obtain rfl := mem_singleton.mp hr
    exact ⟨Nat.zero_le _, hlast.le⟩
  hiaddr := by
    show 2 ^ 64 - 1 - 0 < 2 ^ 64
    decide
  entries := rfl
  sectors := by simp [oneRange]
  sectors_lt := by
    have hhi : NDZ_HIADDR = 2 ^ 64 - 1 := rfl
    simp only [oneRange, size_cons, size_nil]
    omega

/-- The delta begins within the base range and ends behind it. -/
theorem overlay_spec_overlap : ∃ mmap, overlay (oneRange 0 9 1) (oneRange 5 14 2) = .ok mmap ∧ mmap.Inv ∧
      ∀ a, mmap.get a = (overlaid (oneRange 0 9 1) (oneRange 5 14 2) a).map some := by
  have hi : Images (oneRange 0 9 1) (oneRange 5 14 2) := by
    refine ⟨inv_oneRange (by decide) (by decide) 1, inv_oneRange (by decide) (by decide) 2, ?_, ?_⟩
    · intro r hr
      obtain rfl := mem_singleton.mp hr
      decide
    · intro r hr
      obtain rfl := mem_singleton.mp hr
      decide
  exact overlay_spec hi (cons_ne_nil _ _)

end Emulab.Imagezip
