import Emulab.Lib.IntervalMap
import Emulab.Lib.Machine
import Emulab.Lib.MachineInt

/-! # Range maps

  The map from disk addresses to data of `libndz`: a sorted linked list of
  ranges, and a hint that remembers where the last operation was. A pointer
  to a link of the list (`struct ndz_range **`) is the index of the range
  the link points to: `0` is `&map->head.next`, and `j + 1` is the `next`
  field of range `j`.
-/

namespace Emulab.Imagezip

open MachineInt IntervalMap Machine Option
open List hiding any_eq_true

variable {α : Type}

/-! ## Section 1: The map and its operations -/

/-- A range of addresses; `none` is a `NULL` data pointer. -/
abbrev NdzRange (α : Type) := Entry (Option α)

structure NdzRangemap (α : Type) where
  ranges : List (NdzRange α)
  /-- The link that the next search begins at. -/
  hint : Nat
  loaddr : Nat
  hiaddr : Nat
  /-- Counts the changes of the map. -/
  gen : Nat
  entries : Nat
  sectors : Nat

/-- The errors of the operations. -/
inductive Errno where
  | EINVAL
  | ENOMEM
  | EBUSY
deriving DecidableEq

/-- What `ndz_rangemap_lookup` returns: the range with the address, the range
    in front of it, and the new hint. -/
structure Lookup where
  range : Option Nat
  /-- The preceding range; `none` at the head of the list. -/
  prev : Option Nat
  hint : Nat

def ndzRangemapInit (lo hi : Nat) : NdzRangemap α :=
  { ranges := [], hint := 0, loaddr := lo, hiaddr := hi, gen := 1, entries := 0, sectors := 0 }

/-- The search loop of `ndz_rangemap_lookup` from link `prange` on. -/
def lookupLoop (ranges : List (NdzRange α)) (addr prange : Nat) (oprange : Option Nat) : Option Lookup :=
  match hrange : ranges[prange]? with
  | none => none
  | some range =>
    if addr ≤ range.last then
      let prev := if prange = 0 then none else some (prange - 1)
      if addr < range.start then
        some { range := none, prev := prev, hint := oprange.getD prange }
      else
        some { range := some prange, prev := prev, hint := prange }
    else if prange + 1 = ranges.length then
      some { range := none, prev := some prange, hint := prange }
    else
      lookupLoop ranges addr (prange + 1) (some prange)
termination_by ranges.length - prange
decreasing_by
  have := (List.getElem?_eq_some_iff.mp hrange).1
  omega

/-- The assertion that the hint is pointing where it should. -/
def Lookup.hintAsserted (res : Lookup) : Bool :=
  match res.range, res.prev with
  | some range, _ => res.hint = range
  | none, some prev => res.hint = prev
  | none, none => true

/-- Locate an address, beginning at the hint if possible. -/
def ndzRangemapLookup (map : NdzRangemap α) (addr : Nat) : Option Lookup :=
  let restart : Bool :=
    match map.ranges[map.hint]? with
    | none => true
    | some range => addr < range.start
  if restart ∧ map.ranges.isEmpty then
    some { range := none, prev := none, hint := 0 }
  else
    match lookupLoop map.ranges addr (if restart then 0 else map.hint) none with
    | none => none
    | some res => if res.hintAsserted then some res else none

/-- The index of the link behind `prev`. -/
def linkOf (prev : Option Nat) : Nat :=
  match prev with
  | none => 0
  | some prev => prev + 1

/-- Merge `[addr, eaddr]` with the range in front of `link`, the range `next` behind it, or both. -/
def mergeRange (map : NdzRangemap α) (link : Nat) (next : Option (NdzRange α))
    (addr eaddr size : Nat) (abutsPrev : Bool) : NdzRangemap α :=
  let merged :=
    if abutsPrev then
      -- if hint currently points to prev, leave it
      let hint := if map.hint ≠ link - 1 then link else map.hint
      match next.filter fun next => addU64 eaddr 1 = next.start with
      | some next =>
        { map with
          ranges := (map.ranges.modify (link - 1) fun prev =>
            { prev with last := next.last }).eraseIdx link
          entries := subU64 map.entries 1
          hint := hint }
      | none =>
        { map with
          ranges := map.ranges.modify (link - 1) fun prev => { prev with last := eaddr }
          hint := hint }
    else
      { map with
        ranges := map.ranges.modify link fun next => { next with start := addr }
        hint := link }
  { merged with gen := addU64 merged.gen 1, sectors := addU64 merged.sectors size }

/-- Mark `[addr, addr + size - 1]` as allocated with the given data. `nomem`
    says whether `ndz_range_alloc` fails in this call. -/
def ndzRangemapAlloc (map : NdzRangemap α) (addr size : Nat) (data : Option α) (nomem : Bool) :
    Option (Option Errno × NdzRangemap α) := do
  let eaddr := subU64 (addU64 addr size) 1
  if eaddr < addr ∨ addr < map.loaddr ∨ map.hiaddr < eaddr then
    some (some .EINVAL, map)
  else
    let res ← ndzRangemapLookup map addr
    let map := { map with hint := res.hint }
    if res.range.isSome then
      some (some .EINVAL, map)
    else
      let prev := res.prev.bind fun prev => map.ranges[prev]?
      let link := linkOf res.prev
      let next := map.ranges[link]?
      if next.any fun next => next.start ≤ eaddr then
        some (some .EINVAL, map)
      else
        let abutsPrev := prev.any fun prev => addU64 prev.last 1 = addr
        let abutsNext := next.any fun next => addU64 eaddr 1 = next.start
        if data.isNone ∧ (abutsPrev ∧ prev.any (fun prev => prev.data.isNone) ∨
            abutsNext ∧ next.any (fun next => next.data.isNone)) then
          some (none, mergeRange map link next addr eaddr size abutsPrev)
        else if nomem then
          some (some .ENOMEM, map)
        else
          some (none, { map with
            ranges := map.ranges.insertIdx link { start := addr, last := eaddr, data := data }
            hint := link
            gen := addU64 map.gen 1
            entries := addU64 map.entries 1
            sectors := addU64 map.sectors size })

/-- Trim `[addr, eaddr]` off `range`, which is number `i` on the list and
    contains it, or split the range around it. -/
def trimRange (map : NdzRangemap α) (link i : Nat) (range : NdzRange α) (addr eaddr size : Nat)
    (nomem : Bool) : Option Errno × NdzRangemap α :=
  if range.start = addr then
    if range.last = eaddr then
      (none, { map with
        ranges := map.ranges.eraseIdx i
        entries := subU64 map.entries 1
        hint := link
        gen := addU64 map.gen 1
        sectors := subU64 map.sectors size })
    else
      (none, { map with
        ranges := map.ranges.modify i fun range => { range with start := addU64 eaddr 1 }
        hint := link
        gen := addU64 map.gen 1
        sectors := subU64 map.sectors size })
  else if range.last = eaddr then
    (none, { map with
      ranges := map.ranges.modify i fun range => { range with last := subU64 addr 1 }
      hint := link
      gen := addU64 map.gen 1
      sectors := subU64 map.sectors size })
  else if nomem then
    (some .ENOMEM, map)
  else
    (none, { map with
      ranges :=
        (map.ranges.modify i fun range => { range with last := subU64 addr 1 }).insertIdx (i + 1)
          { start := addU64 eaddr 1, last := range.last, data := none }
      hint := i + 1
      gen := addU64 map.gen 1
      entries := addU64 map.entries 1
      sectors := subU64 map.sectors size })

/-- Mark `[addr, addr + size - 1]` as unallocated. -/
def ndzRangemapDealloc (map : NdzRangemap α) (addr size : Nat) (nomem : Bool) :
    Option (Option Errno × NdzRangemap α) := do
  let eaddr := subU64 (addU64 addr size) 1
  if eaddr < addr ∨ addr < map.loaddr ∨ map.hiaddr < eaddr then
    some (some .EINVAL, map)
  else
    let res ← ndzRangemapLookup map addr
    let map := { map with hint := res.hint }
    match res.range with
    | none => some (some .EINVAL, map)
    | some i =>
      let range ← map.ranges[i]?
      if range.last < eaddr then
        some (some .EINVAL, map)
      else if range.data.isSome then
        some (some .EBUSY, map)
      else
        some (trimRange map (linkOf res.prev) i range addr eaddr size nomem)

/-! ## Section 2: The search -/

/-- The index of the last of the first `n` ranges. -/
def prevOf (n : Nat) : Option Nat := if n = 0 then none else some (n - 1)

theorem linkOf_prevOf (n : Nat) : linkOf (prevOf n) = n := by
  cases n <;> simp [linkOf, prevOf]

/-- The result of a search for `addr`: the list is split at the address. -/
inductive Found (ranges : List (NdzRange α)) (addr : Nat) (res : Lookup) : Prop where
  | inside (pre : List (NdzRange α)) (range : NdzRange α) (post : List (NdzRange α))
      (split : ranges = pre ++ range :: post) (mem : In addr range)
      (hrange : res.range = some pre.length) (hprev : res.prev = prevOf pre.length)
      (hhint : res.hint = pre.length)
  | between (pre post : List (NdzRange α)) (split : ranges = pre ++ post)
      (before : ∀ r ∈ pre, r.last < addr) (behind : ∀ r ∈ post, addr < r.start)
      (hrange : res.range = none) (hprev : res.prev = prevOf pre.length)
      (hhint : res.hint = pre.length - 1)

theorem split_at {ranges : List (NdzRange α)} {i : Nat} {range : NdzRange α} (hi : ranges[i]? = some range) :
    ∃ pre post, ranges = pre ++ range :: post ∧ pre.length = i := by
  obtain ⟨hlt, hget⟩ := List.getElem?_eq_some_iff.mp hi
  refine ⟨ranges.take i, ranges.drop (i + 1), ?_, by simp; omega⟩
  rw [← hget, getElem_cons_drop, take_append_drop]

theorem lookupLoop_spec {ranges : List (NdzRange α)} {addr : Nat} (hs : Sorted ranges)
    (prange : Nat) (oprange : Option Nat) (hlt : prange < ranges.length)
    (hbefore : ∀ r ∈ ranges.take prange, r.last < addr)
    (hold : oprange = prevOf prange ∨ oprange = none ∧ ∀ r ∈ ranges[prange]?, r.start ≤ addr) :
    ∃ res, lookupLoop ranges addr prange oprange = some res ∧ Found ranges addr res := by
  fun_induction lookupLoop ranges addr prange oprange with
  | case1 prange oprange hnone =>
    have := List.getElem?_eq_none_iff.mp hnone
    omega
  | case2 prange oprange range hrange hle prev hlt' =>
    obtain ⟨pre, post, rfl, rfl⟩ := split_at hrange
    obtain ⟨-, hpost, -⟩ := sorted_append.mp hs
    obtain ⟨h1, h2, -⟩ := sorted_cons.mp hpost
    rw [take_left] at hbefore
    have hop : oprange = prevOf pre.length := by
      rcases hold with hop | ⟨-, hstart⟩
      · exact hop
      · have := hstart range hrange
        omega
    refine ⟨_, rfl, .between pre (range :: post) rfl hbefore (fun r hr => ?_) rfl rfl ?_⟩
    · rcases mem_cons.mp hr with rfl | hr
      · exact hlt'
      · have := h2 r hr
        omega
    · rw [hop]
      rcases Nat.eq_zero_or_pos pre.length with h | h
      · simp [prevOf, h]
      · simp [prevOf, Nat.ne_of_gt h]
  | case3 prange oprange range hrange hle prev hge =>
    obtain ⟨pre, post, rfl, rfl⟩ := split_at hrange
    exact ⟨_, rfl, .inside pre range post rfl ⟨by omega, hle⟩ rfl rfl rfl⟩
  | case4 prange oprange range hrange hgt hend =>
    obtain ⟨pre, post, rfl, rfl⟩ := split_at hrange
    rw [take_left] at hbefore
    obtain rfl : post = [] := by simpa using hend
    refine ⟨_, rfl, .between (pre ++ [range]) [] (by simp) (fun r hr => ?_) (by simp) rfl ?_ ?_⟩
    · rcases mem_append.mp hr with hr | hr
      · exact hbefore r hr
      · obtain rfl := mem_singleton.mp hr
        omega
    · simp [prevOf]
    · simp
  | case5 prange oprange range hrange hgt hend ih =>
    refine ih (by omega) (fun r hr => ?_) (Or.inl (by simp [prevOf]))
    obtain ⟨pre, post, rfl, rfl⟩ := split_at hrange
    rw [take_left] at hbefore
    rw [take_append, take_of_length_le (by omega)] at hr
    rcases mem_append.mp hr with hr | hr
    · exact hbefore r hr
    · obtain rfl : r = range := by simpa using hr
      omega

variable {map : NdzRangemap α}

/-- The search succeeds from any hint, and its assertions hold. -/
theorem ndzRangemapLookup_spec (hs : Sorted map.ranges) (addr : Nat) :
    ∃ res, ndzRangemapLookup map addr = some res ∧ Found map.ranges addr res := by
  unfold ndzRangemapLookup
  by_cases hempty : map.ranges = []
  · refine ⟨⟨none, none, 0⟩, ?_, .between [] [] hempty (by simp) (by simp) rfl rfl rfl⟩
    simp [hempty]
  · have hpos : 0 < map.ranges.length := length_pos_iff.mpr hempty
    have hassert : ∀ res, Found map.ranges addr res → res.hintAsserted = true := by
      rintro ⟨range, prev, hint⟩ (⟨pre, r, post, -, -, hr, hp, hh⟩ | ⟨pre, post, -, -, -, hr, hp, hh⟩)
      · simp only at hr hh
        simp [Lookup.hintAsserted, hr, hh]
      · simp only at hr hp hh
        subst hr hp hh
        unfold prevOf
        split_ifs <;> simp [Lookup.hintAsserted]
    have hne : map.ranges.isEmpty = false := by simpa using hempty
    simp only [hne, Bool.false_eq_true, and_false, if_false]
    generalize hrestart : (match map.ranges[map.hint]? with
      | none => true
      | some range => decide (addr < range.start)) = restart
    obtain ⟨res, hres, hfound⟩ : ∃ res, lookupLoop map.ranges addr
        (if restart = true then 0 else map.hint) none = some res ∧ Found map.ranges addr res := by
      cases restart with
      | true => exact lookupLoop_spec hs 0 none hpos (by simp) (Or.inl (by simp [prevOf]))
      | false =>
        rcases hget : map.ranges[map.hint]? with _ | range
        · simp [hget] at hrestart
        · have hstart : range.start ≤ addr := by simpa [hget] using hrestart
          refine lookupLoop_spec hs map.hint none (List.getElem?_eq_some_iff.mp hget).1
            (fun r hr => ?_) (Or.inr ⟨rfl, by simpa [hget] using hstart⟩)
          obtain ⟨pre, post, hsplit, hlen⟩ := split_at hget
          rw [hsplit] at hs hr
          rw [← hlen, take_left] at hr
          have := (sorted_append.mp hs).2.2 r hr range mem_cons_self
          omega
    rw [hres]
    exact ⟨res, by simp [hassert res hfound], hfound⟩

/-! ## Section 3: Changes to the list -/

theorem getElem?_length_append {β : Type} (pre post : List β) : (pre ++ post)[pre.length]? = post.head? := by
  rw [List.getElem?_append_right le_rfl, Nat.sub_self, List.head?_eq_getElem?]

theorem modify_length_append {β : Type} (pre : List β) (x : β) (post : List β) (f : β → β) :
    (pre ++ x :: post).modify pre.length f = pre ++ f x :: post := by
  induction pre with
  | nil => rfl
  | cons y pre ih => simp [ih]

theorem eraseIdx_length_append {β : Type} (pre : List β) (x : β) (post : List β) :
    (pre ++ x :: post).eraseIdx pre.length = pre ++ post := by
  induction pre with
  | nil => rfl
  | cons y pre ih => simp [ih]

theorem insertIdx_length_append {β : Type} (pre : List β) (x : β) (post : List β) :
    (pre ++ post).insertIdx pre.length x = pre ++ x :: post := by
  induction pre with
  | nil => rfl
  | cons y pre ih => simp [ih]

/-- The range in front of a link. -/
theorem getElem?_prevOf {β : Type} (pre post : List β) :
    ((prevOf pre.length).bind fun i => (pre ++ post)[i]?) = pre.getLast? := by
  unfold prevOf
  rcases eq_nil_or_concat pre with rfl | ⟨pre, x, rfl⟩
  · rfl
  · simp

/-! ## Section 4: The invariant, and what an operation does -/

/-- The invariant of a range map. -/
structure NdzRangemap.Inv (map : NdzRangemap α) : Prop where
  /-- The ranges are nonempty, ascending and disjoint. -/
  sorted : Sorted map.ranges
  within : ∀ r ∈ map.ranges, map.loaddr ≤ r.start ∧ r.last ≤ map.hiaddr
  hiaddr : map.hiaddr < 2 ^ 64
  entries : map.entries = map.ranges.length
  sectors : map.sectors = size map.ranges
  /-- Not every 64-bit number is an allocated address. -/
  sectors_lt : size map.ranges < 2 ^ 64

/-- What the map stores at an address; `some none` is an allocated address without data. -/
def NdzRangemap.get (map : NdzRangemap α) (a : Nat) : Option (Option α) :=
  IntervalMap.get map.ranges a

/-- The effect that an operation on `size` addresses from `addr` on must have: after an error the map is as
    before, and after a success exactly the addresses of the range have the new value `v`. -/
structure Effect (map : NdzRangemap α) (addr size : Nat) (v : Option (Option α))
    (err : Option Errno) (map' : NdzRangemap α) : Prop where
  inv : map'.Inv
  bounds : map'.loaddr = map.loaddr ∧ map'.hiaddr = map.hiaddr
  /-- An error leaves the represented map unchanged. -/
  error : err ≠ none → ∀ a, map'.get a = map.get a
  /-- A success changes the addresses of the range, and no others. -/
  success : err = none → ∀ a, map'.get a = if addr ≤ a ∧ a < addr + size then v else map.get a

theorem length_le_size {l : List (NdzRange α)} (h : Sorted l) : l.length ≤ size l := by
  induction l with
  | nil => simp
  | cons r l ih =>
    obtain ⟨h1, -, h3⟩ := sorted_cons.mp h
    have := ih h3
    rw [length_cons, size_cons]
    omega

theorem NdzRangemap.Inv.hint (h : map.Inv) (hint : Nat) : { map with hint := hint }.Inv :=
  ⟨h.sorted, h.within, h.hiaddr, h.entries, h.sectors, h.sectors_lt⟩

theorem effect_error (h : map.Inv) (addr size : Nat) (v : Option (Option α))
    (hint : Nat) (e : Errno) : Effect map addr size v (some e) { map with hint := hint } :=
  ⟨h.hint hint, ⟨rfl, rfl⟩, fun _ _ => rfl, fun hnone => by simp at hnone⟩

variable {addr size : Nat}

theorem effect_assigned {map map' : NdzRangemap α} (h : map.Inv)
    {data : Option α} (ha : Assigned map.ranges map'.ranges addr (addr + size - 1) data)
    (hfree : ∀ a d, addr ≤ a → a ≤ addr + size - 1 → ¬Has map.ranges a d) (hsize : 0 < size)
    (hlo : map.loaddr ≤ addr) (hhi : addr + size - 1 ≤ map.hiaddr)
    (hbounds : map'.loaddr = map.loaddr ∧ map'.hiaddr = map.hiaddr)
    (hentries : map'.ranges.length < 2 ^ 64 → map'.entries = map'.ranges.length)
    (hsectors : map'.sectors = addU64 map.sectors size) (hroom : map.sectors + size ≠ 2 ^ 64) :
    Effect map addr size (some data) none map' := by
  have hnew : IntervalMap.size map'.ranges = map.sectors + size := by
    rw [ha.size, h.sectors]
    omega
  have hwithin := ha.within _ _ h.within hlo hhi
  have hmax := size_le ha.sorted (fun r hr => (hwithin r hr).1) fun r hr => (hwithin r hr).2
  have hhiaddr := h.hiaddr
  have hlen := length_le_size ha.sorted
  rw [addU64_of_lt (by omega)] at hsectors
  refine ⟨⟨ha.sorted, ?_, hbounds.2 ▸ h.hiaddr, hentries (by omega), by omega, by omega⟩, hbounds,
    fun hne => absurd rfl hne, fun _ a => ?_⟩
  · rw [hbounds.1, hbounds.2]
    exact hwithin
  · refine get_ext ha.sorted fun d => ?_
    rw [ha.has]
    by_cases hin : addr ≤ a ∧ a < addr + size
    · have hno := hfree a d hin.1 (by omega)
      have hin' : addr ≤ a ∧ a ≤ addr + size - 1 := by omega
      simp [hin, hin', hno]
    · have hin' : ¬(addr ≤ a ∧ a ≤ addr + size - 1) := by omega
      simp only [hin', false_and, false_or, if_neg hin]
      exact (get_eq_some_iff h.sorted).symm

theorem effect_removed {map map' : NdzRangemap α} (h : map.Inv)
    (hr : Removed map.ranges map'.ranges addr (addr + size - 1)) (hsize : 0 < size)
    (hbounds : map'.loaddr = map.loaddr ∧ map'.hiaddr = map.hiaddr)
    (hentries : map'.entries = map'.ranges.length) (hsectors : map'.sectors = map.sectors - size) :
    Effect map addr size none none map' := by
  have hold := hr.size
  have hsec := h.sectors
  have hlt := h.sectors_lt
  refine ⟨⟨hr.sorted, ?_, hbounds.2 ▸ h.hiaddr, hentries, by omega, by omega⟩, hbounds,
    fun hne => absurd rfl hne, fun _ a => ?_⟩
  · rw [hbounds.1, hbounds.2]
    exact hr.within _ _ h.within
  · refine get_ext hr.sorted fun d => ?_
    rw [hr.has]
    by_cases hin : addr ≤ a ∧ a < addr + size
    · have hin' : addr ≤ a ∧ a ≤ addr + size - 1 := by omega
      simp [hin, hin']
    · have hin' : ¬(addr ≤ a ∧ a ≤ addr + size - 1) := by omega
      simp only [hin', not_false_eq_true, and_true, if_neg hin]
      exact (get_eq_some_iff h.sorted).symm

/-! ## Section 5: Allocation -/

/-- The range lies within the bounds of the map and none of it is allocated. -/
def FreeRange (map : NdzRangemap α) (addr eaddr : Nat) : Prop :=
  map.loaddr ≤ addr ∧ addr ≤ eaddr ∧ eaddr ≤ map.hiaddr ∧ ∀ a, addr ≤ a → a ≤ eaddr → map.get a = none

/-- The range abuts a range on either side, exactly one of which has data. -/
def MixedNeighbours (map : NdzRangemap α) (addr eaddr : Nat) : Prop :=
  ∃ p ∈ map.ranges, ∃ n ∈ map.ranges, p.last + 1 = addr ∧ eaddr + 1 = n.start ∧ (p.data = none ↔ n.data ≠ none)

/-- When `ndz_rangemap_alloc` does what it is meant to do: it is not asked to allocate, without data, a free
    range between neighbours of which exactly one has data, nor the last free ones of the 2 ^ 64 addresses,
    which the 64-bit sector counter cannot count. -/
def AllocOk (map : NdzRangemap α) (addr size : Nat) (data : Option α) : Prop :=
  let eaddr := subU64 (addU64 addr size) 1
  ¬(FreeRange map addr eaddr ∧
    (data = none ∧ MixedNeighbours map addr eaddr ∨ map.sectors + (eaddr + 1 - addr) = 2 ^ 64))

/-- What is known once `ndz_rangemap_alloc` has found the range to be free: the list is split around it. -/
structure Gap (map : NdzRangemap α) (pre post : List (NdzRange α)) (addr eaddr : Nat) : Prop where
  split : map.ranges = pre ++ post
  /-- Nothing before the gap reaches into it. -/
  before : ∀ r ∈ pre, r.last < addr
  /-- Nothing behind the gap reaches into it. -/
  behind : ∀ r ∈ post, eaddr < r.start
  bounds : map.loaddr ≤ addr ∧ addr ≤ eaddr ∧ eaddr ≤ map.hiaddr

variable {pre post : List (NdzRange α)}

theorem Gap.free {addr eaddr : Nat}
    (h : Gap map pre post addr eaddr) (a : Nat) (d : Option α) (h1 : addr ≤ a) (h2 : a ≤ eaddr) :
    ¬Has map.ranges a d := by
  rw [h.split, has_append]
  rintro (hpre | hpost)
  · exact not_has_of_gt (fun r hr => by have := h.before r hr; omega) hpre
  · exact not_has_of_lt (fun r hr => by have := h.behind r hr; omega) hpost

theorem Gap.freeRange {addr eaddr : Nat}
    (h : Gap map pre post addr eaddr) (hs : Sorted map.ranges) : FreeRange map addr eaddr := by
  refine ⟨h.bounds.1, h.bounds.2.1, h.bounds.2.2, fun a h1 h2 => ?_⟩
  exact get_ext hs fun d => by simp [h.free a d h1 h2]

/-- A range that was accepted does not wrap around. -/
theorem no_wrap {data : Option α} (hinv : map.Inv) (haddr : addr < 2 ^ 64) (hsize : size < 2 ^ 64)
    (hgap : Gap map pre post addr (subU64 (addU64 addr size) 1)) (hok : AllocOk map addr size data) :
    0 < size ∧ subU64 (addU64 addr size) 1 = addr + size - 1 ∧ map.sectors + size ≠ 2 ^ 64 := by
  have hle := hgap.bounds.2.1
  have hhi := hgap.bounds.2.2
  have hfull : map.sectors + (subU64 (addU64 addr size) 1 + 1 - addr) ≠ 2 ^ 64 :=
    fun h => hok ⟨hgap.freeRange hinv.sorted, Or.inr h⟩
  have hpos : 0 < size := by
    by_contra hzero
    obtain rfl : size = 0 := by omega
    have headdr : addr = 0 ∧ subU64 (addU64 addr 0) 1 = 2 ^ 64 - 1 := by
      simp only [addU64, subU64] at hle ⊢
      omega
    -- an empty range at address 0 is taken for all of the addresses
    have hnil : map.ranges = [] := by
      rw [eq_nil_iff_forall_not_mem]
      intro r hr
      have := hinv.within r hr
      have := hinv.hiaddr
      exact hgap.free r.start r.data (by omega) (by have := hinv.sorted.nonempty r hr; omega)
        ⟨r, hr, ⟨le_rfl, hinv.sorted.nonempty r hr⟩, rfl⟩
    have hsec := hinv.sectors
    rw [hnil, size_nil] at hsec
    omega
  have headdr : subU64 (addU64 addr size) 1 = addr + size - 1 := by
    simp only [addU64, subU64] at hle ⊢
    omega
  exact ⟨hpos, headdr, by rw [headdr] at hfull; omega⟩

section Merge

variable {map : NdzRangemap α} {pre post : List (NdzRange α)} {p n : NdzRange α}

theorem mergeRange_next (h : map.ranges = pre ++ n :: post) (next : Option (NdzRange α)) (addr eaddr size : Nat) :
    mergeRange map pre.length next addr eaddr size false = { map with
      ranges := pre ++ { n with start := addr } :: post
      hint := pre.length
      gen := addU64 map.gen 1
      sectors := addU64 map.sectors size } := by
  simp only [mergeRange, Bool.false_eq_true, if_false, h, modify_length_append]

theorem mergeRange_prev (h : map.ranges = pre ++ p :: post) {next : Option (NdzRange α)}
    {eaddr : Nat} (hnext : ∀ n ∈ next, addU64 eaddr 1 ≠ n.start) (addr size : Nat) :
    mergeRange map (pre.length + 1) next addr eaddr size true = { map with
      ranges := pre ++ { p with last := eaddr } :: post
      hint := if map.hint ≠ pre.length then pre.length + 1 else map.hint
      gen := addU64 map.gen 1
      sectors := addU64 map.sectors size } := by
  have hfilter : (next.filter fun next => addU64 eaddr 1 = next.start) = none := by
    rw [filter_eq_none_iff]
    intro n hn
    simpa using hnext n hn
  simp only [mergeRange, if_true, hfilter, h, Nat.add_sub_cancel, modify_length_append]

theorem mergeRange_join (h : map.ranges = pre ++ p :: n :: post) {eaddr : Nat}
    (hnext : addU64 eaddr 1 = n.start) (addr size : Nat) :
    mergeRange map (pre.length + 1) (some n) addr eaddr size true = { map with
      ranges := pre ++ { p with last := n.last } :: post
      entries := subU64 map.entries 1
      hint := if map.hint ≠ pre.length then pre.length + 1 else map.hint
      gen := addU64 map.gen 1
      sectors := addU64 map.sectors size } := by
  have hfilter : ((some n).filter fun next => addU64 eaddr 1 = next.start) = some n := by
    simp [hnext]
  have herase := eraseIdx_length_append (pre ++ [{ p with last := n.last }]) n post
  simp only [append_assoc, singleton_append, length_append, length_singleton] at herase
  simp only [mergeRange, if_true, hfilter, h, Nat.add_sub_cancel, modify_length_append, herase]

end Merge

/-- Merging with both neighbours, or with the one that abuts, where the
    neighbours that abut have no data. -/
theorem mergeRange_spec (hinv : map.Inv) (hgap : Gap map pre post addr (addr + size - 1))
    (hsize : 0 < size) (hroom : map.sectors + size ≠ 2 ^ 64) {abutsPrev : Bool}
    (habuts : abutsPrev = pre.getLast?.any fun p => addU64 p.last 1 = addr)
    (hprev : ∀ p ∈ pre.getLast?, p.last + 1 = addr → p.data = none)
    (hnext : ∀ n ∈ post.head?, addr + size - 1 + 1 = n.start → n.data = none)
    (hsome : abutsPrev = true ∨ ∃ n ∈ post.head?, addr + size - 1 + 1 = n.start) :
    Effect map addr size (some none) none
      (mergeRange map pre.length post.head? addr (addr + size - 1) size abutsPrev) := by
  have hs := hinv.sorted
  have hlen := length_le_size hs
  have hent := hinv.entries
  have hlt := hinv.sectors_lt
  have hhiaddr := hinv.hiaddr
  obtain ⟨hlo, hle, hhi⟩ := hgap.bounds
  have hsucc : ∀ n ∈ post.head?, addU64 (addr + size - 1) 1 = addr + size - 1 + 1 := by
    intro n hn
    have hmem : n ∈ post := mem_of_mem_head? hn
    have := hgap.behind n hmem
    have hn' : n ∈ map.ranges := hgap.split ▸ mem_append_right _ hmem
    have := (hinv.within n hn').2
    have := hs.nonempty n hn'
    exact addU64_of_lt (by omega)
  by_cases hprevAbut : abutsPrev = true
  · obtain ⟨pre, p, rfl⟩ : ∃ pre' p, pre = pre' ++ [p] := by
      rcases eq_nil_or_concat pre with rfl | ⟨pre', p, hpre⟩
      · simp [habuts] at hprevAbut
      · exact ⟨pre', p, by simpa using hpre⟩
    have hp : p.last < addr := hgap.before p (by simp)
    have hpabut : p.last + 1 = addr := by
      rw [← addU64_of_lt (by omega : p.last + 1 < 2 ^ 64)]
      simpa [habuts] using hprevAbut
    have hpdata : p.data = none := hprev p (by simp) hpabut
    rw [hprevAbut, length_append, length_singleton]
    by_cases hnabut : ∃ n ∈ post.head?, addr + size - 1 + 1 = n.start
    · -- both neighbours
      obtain ⟨n, hn, hnabut⟩ := hnabut
      obtain ⟨post, rfl⟩ : ∃ post', post = n :: post' := ⟨_, eq_cons_of_mem_head? hn⟩
      have hsplit : map.ranges = pre ++ p :: n :: post := by simpa using hgap.split
      rw [List.head?_cons, mergeRange_join hsplit (by rw [hsucc n hn, hnabut])]
      have ha := assigned_join (hsplit ▸ hs) hle hpabut hnabut (by rw [hpdata, hnext n hn hnabut])
      rw [← hsplit] at ha
      rw [← hpdata]
      refine effect_assigned hinv ha hgap.free hsize hlo hhi ⟨rfl, rfl⟩ (fun _ => ?_) rfl hroom
      have hcount : map.ranges.length = pre.length + (post.length + 2) := by simp [hsplit]
      simp only [length_append, length_cons]
      rw [subU64_of_le (by omega) (by omega)]
      omega
    · -- only the range in front
      have hsplit : map.ranges = pre ++ p :: post := by simpa using hgap.split
      rw [mergeRange_prev hsplit fun n hn h => hnabut ⟨n, hn, by rw [← hsucc n hn, h]⟩]
      have ha := assigned_prev (hsplit ▸ hs) hle hpabut hgap.behind
      rw [← hsplit] at ha
      rw [← hpdata]
      refine effect_assigned hinv ha hgap.free hsize hlo hhi ⟨rfl, rfl⟩ (fun _ => ?_) rfl hroom
      simpa [hsplit] using hent
  · -- only the range behind
    obtain ⟨n, hn, hnabut⟩ := hsome.resolve_left hprevAbut
    obtain ⟨post, rfl⟩ : ∃ post', post = n :: post' := ⟨_, eq_cons_of_mem_head? hn⟩
    have hsplit : map.ranges = pre ++ n :: post := hgap.split
    rw [Bool.eq_false_iff.mpr hprevAbut, mergeRange_next hsplit]
    have ha := assigned_next (hsplit ▸ hs) hle hnabut hgap.before
    rw [← hsplit] at ha
    rw [← hnext n hn hnabut]
    refine effect_assigned hinv ha hgap.free hsize hlo hhi ⟨rfl, rfl⟩ (fun _ => ?_) rfl hroom
    simpa [hsplit] using hent

theorem neighbours_agree {addr eaddr : Nat}
    (hsplit : map.ranges = pre ++ post) (hmixed : ¬MixedNeighbours map addr eaddr)
    {p n : NdzRange α} (hp : p ∈ pre.getLast?) (hn : n ∈ post.head?) (hpabut : p.last + 1 = addr)
    (hnabut : eaddr + 1 = n.start) : p.data = none ↔ n.data = none := by
  by_contra hne
  refine hmixed ⟨p, ?_, n, ?_, hpabut, hnabut, by tauto⟩
  · exact hsplit ▸ mem_append_left _ (mem_of_mem_getLast? hp)
  · exact hsplit ▸ mem_append_right _ (mem_of_mem_head? hn)

/-- `ndz_rangemap_alloc` sets exactly the range, or reports an error and leaves the map as it was. -/
theorem ndzRangemapAlloc_spec (hinv : map.Inv) (haddr : addr < 2 ^ 64) (hsize : size < 2 ^ 64) {data : Option α}
    (hok : AllocOk map addr size data) (nomem : Bool) :
    ∃ err map', ndzRangemapAlloc map addr size data nomem = some (err, map') ∧
      Effect map addr size (some data) err map' := by
  have herror := effect_error hinv addr size (some data)
  obtain ⟨res, hres, hfound⟩ := ndzRangemapLookup_spec hinv.sorted addr
  unfold ndzRangemapAlloc
  by_cases hbounds : subU64 (addU64 addr size) 1 < addr ∨ addr < map.loaddr ∨
      map.hiaddr < subU64 (addU64 addr size) 1
  · simp only [if_pos hbounds]
    exact ⟨_, _, rfl, herror map.hint .EINVAL⟩
  simp only [if_neg hbounds, hres, bind_eq_bind, bind_some]
  obtain ⟨pre, range, post, -, -, hrange, -, -⟩ | ⟨pre, post, hsplit, hbefore, hbehind, hrange, hprev, -⟩ :=
    hfound
  · simp only [hrange, isSome_some, if_true]
    exact ⟨_, _, rfl, herror _ .EINVAL⟩
  have hprevEntry : (prevOf pre.length).bind (fun prev => map.ranges[prev]?) = pre.getLast? := by
    rw [hsplit, getElem?_prevOf]
  have hnextEntry : map.ranges[pre.length]? = post.head? := by
    rw [hsplit, getElem?_length_append]
  simp only [hrange, isSome_none, Bool.false_eq_true, if_false, hprev, linkOf_prevOf, hprevEntry, hnextEntry]
  by_cases hover : (post.head?.any fun next =>
      decide (next.start ≤ subU64 (addU64 addr size) 1)) = true
  · simp only [if_pos hover]
    exact ⟨_, _, rfl, herror _ .EINVAL⟩
  simp only [if_neg hover]
  -- the range is free
  have hgap : Gap map pre post addr (subU64 (addU64 addr size) 1) := by
    refine ⟨hsplit, hbefore, fun r hr => ?_, by omega, by omega, by omega⟩
    rcases post with _ | ⟨n, post⟩
    · simp at hr
    · have hn : subU64 (addU64 addr size) 1 < n.start := by simpa using hover
      have hsorted := hinv.sorted
      rw [hsplit] at hsorted
      obtain ⟨hn', hpost, -⟩ := sorted_cons.mp (sorted_append.mp hsorted).2.1
      rcases mem_cons.mp hr with rfl | hr
      · exact hn
      · have := hpost r hr
        omega
  obtain ⟨hpos, headdr, hroom⟩ := no_wrap hinv haddr hsize hgap hok
  have hmixed : data = none → ¬MixedNeighbours map addr (addr + size - 1) := fun hdata hmix =>
    hok ⟨hgap.freeRange hinv.sorted, Or.inl ⟨hdata, headdr.symm ▸ hmix⟩⟩
  rw [headdr] at hgap hover ⊢
  obtain ⟨hlo, hle, hhi⟩ := hgap.bounds
  split_ifs with hmerge hmem
  · obtain ⟨hdata, hmerge⟩ := hmerge
    obtain rfl : data = none := by simpa using hdata
    have hagree := fun p n => neighbours_agree (p := p) (n := n) hsplit (hmixed rfl)
    have hpsucc : ∀ p ∈ pre.getLast?, addU64 p.last 1 = p.last + 1 := fun p hp =>
      addU64_of_lt (by have := hbefore p (mem_of_mem_getLast? hp); omega)
    have hnsucc : ∀ n ∈ post.head?, addU64 (addr + size - 1) 1 = addr + size - 1 + 1 := by
      intro n hn
      have hmem : n ∈ map.ranges := hsplit ▸ mem_append_right _ (mem_of_mem_head? hn)
      have := hgap.behind n (mem_of_mem_head? hn)
      have := (hinv.within n hmem).2
      have := hinv.sorted.nonempty n hmem
      have := hinv.hiaddr
      exact addU64_of_lt (by omega)
    simp only [any_eq_true, decide_eq_true_eq, isNone_iff_eq_none] at hmerge
    have heff := mergeRange_spec (hinv.hint res.hint)
      ⟨hgap.split, hgap.before, hgap.behind, hgap.bounds⟩ hpos hroom rfl ?_ ?_ ?_
    · exact ⟨_, _, rfl, heff.inv, heff.bounds, heff.error, heff.success⟩
    · intro p hp hpabut
      obtain ⟨-, p', hp', hnone⟩ | ⟨⟨n, hn, hnabut⟩, n', hn', hnone⟩ := hmerge
      · exact mem_unique hp hp' ▸ hnone
      · obtain rfl := mem_unique hn hn'
        exact (hagree p n hp hn hpabut (by rw [← hnsucc n hn, hnabut])).mpr hnone
    · intro n hn hnabut
      obtain ⟨⟨p, hp, hpabut⟩, p', hp', hnone⟩ | ⟨-, n', hn', hnone⟩ := hmerge
      · obtain rfl := mem_unique hp hp'
        exact (hagree p n hp hn (by rw [← hpsucc p hp, hpabut]) hnabut).mp hnone
      · exact mem_unique hn hn' ▸ hnone
    · obtain ⟨⟨p, hp, hpabut⟩, -⟩ | ⟨⟨n, hn, hnabut⟩, -⟩ := hmerge
      · exact Or.inl (by simp only [any_eq_true, decide_eq_true_eq]; exact ⟨p, hp, hpabut⟩)
      · exact Or.inr ⟨n, hn, by rw [← hnsucc n hn, hnabut]⟩
  · exact ⟨_, _, rfl, herror _ .ENOMEM⟩
  · refine ⟨_, _, rfl, ?_⟩
    have ha := assigned_insert (hsplit ▸ hinv.sorted) hle hgap.before hgap.behind data
    rw [← hsplit] at ha
    refine effect_assigned hinv (by simpa only [hsplit, insertIdx_length_append] using ha)
      hgap.free hpos hlo hhi ⟨rfl, rfl⟩ (fun hlt => ?_) rfl hroom
    have hent := hinv.entries
    simp only [hsplit, insertIdx_length_append, length_append, length_cons] at hlt hent ⊢
    rw [hent, addU64_of_lt (by omega)]
    omega

/-! ## Section 6: Deallocation -/

theorem trimRange_spec (hinv : map.Inv) {range : NdzRange α} (hsplit : map.ranges = pre ++ range :: post)
    (hsize : 0 < size) (hlo : range.start ≤ addr) (hhi : addr + size - 1 ≤ range.last)
    (hdata : range.data = none) (nomem : Bool) :
    ∃ err map', trimRange map pre.length pre.length range addr (addr + size - 1) size nomem =
        (err, map') ∧ Effect map addr size none err map' := by
  have hs : Sorted (pre ++ range :: post) := hsplit ▸ hinv.sorted
  have hle : addr ≤ addr + size - 1 := by omega
  have hmem : range ∈ map.ranges := hsplit ▸ mem_append_right _ mem_cons_self
  have hwithin := hinv.within range hmem
  have hlt := hinv.hiaddr
  have hent := hinv.entries
  have hlen := length_le_size hinv.sorted
  have hroom := hinv.sectors_lt
  have hcount : map.ranges.length = pre.length + (post.length + 1) := by simp [hsplit]
  have hrangeLen : range.last + 1 - range.start ≤ IntervalMap.size map.ranges := by
    rw [hsplit, size_append, size_cons]
    omega
  have hsec : subU64 map.sectors size = map.sectors - size := by
    have := hinv.sectors
    exact subU64_of_le (by omega) (by omega)
  have hsub : range.start < addr → subU64 addr 1 = addr - 1 := fun h =>
    subU64_of_le (by omega) (by omega)
  have hadd : addr + size - 1 < range.last →
      addU64 (addr + size - 1) 1 = addr + size - 1 + 1 := fun h => addU64_of_lt (by omega)
  unfold trimRange
  by_cases hfront : range.start = addr
  · rw [if_pos hfront]
    by_cases hback : range.last = addr + size - 1
    · -- the whole range
      rw [if_pos hback]
      refine ⟨_, _, rfl, effect_removed hinv ?_ hsize ⟨rfl, rfl⟩ ?_ hsec⟩
      · rw [hsplit, eraseIdx_length_append]
        exact removed_all hs hle hfront hback
      · simp only [hsplit, eraseIdx_length_append, length_append]
        rw [subU64_of_le (by omega) (by omega)]
        omega
    · -- its front
      rw [if_neg hback]
      refine ⟨_, _, rfl, effect_removed hinv ?_ hsize ⟨rfl, rfl⟩ ?_ hsec⟩
      · rw [hsplit, modify_length_append, hadd (by omega)]
        exact removed_front hs hle hfront (by omega)
      · rw [length_modify]
        exact hent
  · rw [if_neg hfront]
    by_cases hback : range.last = addr + size - 1
    · -- its back
      rw [if_pos hback]
      refine ⟨_, _, rfl, effect_removed hinv ?_ hsize ⟨rfl, rfl⟩ ?_ hsec⟩
      · rw [hsplit, modify_length_append, hsub (by omega)]
        exact removed_back hs hle (by omega) hback
      · rw [length_modify]
        exact hent
    · rw [if_neg hback]
      cases nomem with
      | true => exact ⟨_, _, rfl, effect_error hinv addr size none map.hint .ENOMEM⟩
      | false =>
        -- its middle
        have hinsert := insertIdx_length_append (pre ++ [{ range with last := addr - 1 }])
          { start := addr + size - 1 + 1, last := range.last, data := none } post
        simp only [append_assoc, singleton_append, length_append, length_singleton] at hinsert
        have hranges : (map.ranges.modify pre.length fun range =>
            { range with last := subU64 addr 1 }).insertIdx (pre.length + 1)
              { start := addU64 (addr + size - 1) 1, last := range.last, data := none } =
            pre ++ { range with last := addr - 1 } :: { range with start := addr + size - 1 + 1 } :: post := by
          rw [hsplit, modify_length_append, hsub (by omega), hadd (by omega), hinsert, hdata]
        refine ⟨_, _, rfl, effect_removed hinv ?_ hsize ⟨rfl, rfl⟩ ?_ hsec⟩
        · simp only [hranges]
          rw [hsplit]
          exact removed_middle hs hle (by omega) (by omega)
        · -- the two parts have an address each, so the counter does not wrap
          have h2 : 2 ≤ range.last + 1 - range.start := by omega
          have hpart : map.ranges.length + 1 ≤ IntervalMap.size map.ranges := by
            have h1 := length_le_size (sorted_append.mp hs).1
            have h3 := length_le_size (sorted_cons.mp (sorted_append.mp hs).2.1).2.2
            rw [hcount, hsplit, size_append, size_cons]
            omega
          simp only [hranges, length_append, length_cons]
          rw [addU64_of_lt (by omega)]
          omega

theorem ndzRangemapDealloc_spec (hinv : map.Inv) (haddr : addr < 2 ^ 64) (hsize : size < 2 ^ 64) (nomem : Bool) :
    ∃ err map', ndzRangemapDealloc map addr size nomem = some (err, map') ∧
      Effect map addr size none err map' := by
  have herror := effect_error hinv addr size none
  obtain ⟨res, hres, hfound⟩ := ndzRangemapLookup_spec hinv.sorted addr
  unfold ndzRangemapDealloc
  by_cases hbounds : subU64 (addU64 addr size) 1 < addr ∨ addr < map.loaddr ∨
      map.hiaddr < subU64 (addU64 addr size) 1
  · simp only [if_pos hbounds]
    exact ⟨_, _, rfl, herror map.hint .EINVAL⟩
  rw [if_neg hbounds, hres, bind_eq_bind, bind_some]
  obtain ⟨pre, range, post, hsplit, ⟨hlo, hhi⟩, hrange, hprev, -⟩ | ⟨_, _, -, -, -, hrange, -, -⟩ := hfound
  · have hget : map.ranges[pre.length]? = some range := by
      rw [hsplit, getElem?_length_append, List.head?_cons]
    rw [hrange]
    dsimp only
    rw [hget, hprev, linkOf_prevOf, bind_eq_bind, bind_some]
    split_ifs with hshort hdata
    · exact ⟨_, _, rfl, herror _ .EINVAL⟩
    · exact ⟨_, _, rfl, herror _ .EBUSY⟩
    · have hwithin := hinv.within range (hsplit ▸ mem_append_right _ mem_cons_self)
      have hlt := hinv.hiaddr
      have hsec := hinv.sectors
      have hroom := hinv.sectors_lt
      have hrangeLen : range.last + 1 - range.start ≤ IntervalMap.size map.ranges := by
        rw [hsplit, size_append, size_cons]
        omega
      obtain ⟨hpos, headdr⟩ : 0 < size ∧ subU64 (addU64 addr size) 1 = addr + size - 1 := by
        simp only [addU64, subU64] at hbounds hshort ⊢
        omega
      rw [headdr] at hshort ⊢
      obtain ⟨err, map', htrim, heff⟩ := trimRange_spec (hinv.hint res.hint) hsplit hpos hlo
        (by omega) (by simpa using hdata) nomem
      exact ⟨err, map', congrArg some htrim, heff.inv, heff.bounds, heff.error, heff.success⟩
  · rw [hrange]
    exact ⟨_, _, rfl, herror _ .EINVAL⟩

/-! ## Section 7: Sequences of operations -/

/-- A call of `ndz_rangemap_alloc` or `ndz_rangemap_dealloc`. -/
inductive RangeOp (α : Type) where
  | alloc (addr size : Nat) (data : Option α) (nomem : Bool)
  | dealloc (addr size : Nat) (nomem : Bool)

namespace RangeOp

/-- Perform the call. -/
def apply (op : RangeOp α) (map : NdzRangemap α) : Option (Option Errno × NdzRangemap α) :=
  match op with
  | .alloc addr size data nomem => ndzRangemapAlloc map addr size data nomem
  | .dealloc addr size nomem => ndzRangemapDealloc map addr size nomem

/-- The map after the call. -/
def step (map : NdzRangemap α) (op : RangeOp α) : Option (NdzRangemap α) :=
  (op.apply map).map (·.2)

/-- The arguments are 64-bit numbers. -/
def WellFormed : RangeOp α → Prop
  | .alloc addr size _ _ => addr < 2 ^ 64 ∧ size < 2 ^ 64
  | .dealloc addr size _ => addr < 2 ^ 64 ∧ size < 2 ^ 64

/-- The call is not an allocation that goes wrong. -/
def Ok (map : NdzRangemap α) : RangeOp α → Prop
  | .alloc addr size data _ => AllocOk map addr size data
  | .dealloc .. => True

/-- What the call must do: set the addresses of its range to its data,
    respectively remove them, or change nothing and report an error. -/
def HasEffect (op : RangeOp α) (map : NdzRangemap α) (err : Option Errno) (map' : NdzRangemap α) : Prop :=
  match op with
  | .alloc addr size data _ => Effect map addr size (some data) err map'
  | .dealloc addr size _ => Effect map addr size none err map'

/-- One call, in a state of the invariant. -/
theorem apply_spec {map : NdzRangemap α} (hinv : map.Inv) {op : RangeOp α} (hwf : op.WellFormed)
    (hok : op.Ok map) : ∃ err map', op.apply map = some (err, map') ∧ op.HasEffect map err map' := by
  cases op with
  | alloc addr size data nomem => exact ndzRangemapAlloc_spec hinv hwf.1 hwf.2 hok nomem
  | dealloc addr size nomem => exact ndzRangemapDealloc_spec hinv hwf.1 hwf.2 nomem

theorem hasEffect_inv {map map' : NdzRangemap α} {op : RangeOp α} {err : Option Errno}
    (h : op.HasEffect map err map') : map'.Inv ∧ map'.loaddr = map.loaddr ∧ map'.hiaddr = map.hiaddr := by
  cases op with
  | alloc addr size data nomem => exact ⟨Effect.inv h, Effect.bounds h⟩
  | dealloc addr size nomem => exact ⟨Effect.inv h, Effect.bounds h⟩

end RangeOp

theorem inv_ndzRangemapInit {lo hi : Nat} (hhi : hi < 2 ^ 64) : (ndzRangemapInit lo hi : NdzRangemap α).Inv :=
  ⟨sorted_nil, by simp [ndzRangemapInit], hhi, rfl, rfl, by simp [ndzRangemapInit]⟩

/-- After every sequence of calls that meet the condition, the map is well formed and within its bounds, and
    the next such call does exactly what it must. -/
theorem rangemap_refines {lo hi : Nat} (hhi : hi < 2 ^ 64) {ops : List (RangeOp α)}
    (hwf : ∀ op ∈ ops, op.WellFormed)
    (hok : Meets RangeOp.step (fun map op => op.Ok map) (ndzRangemapInit lo hi) ops) :
    ∃ map, run RangeOp.step (ndzRangemapInit lo hi) ops = some map ∧ map.Inv ∧ map.loaddr = lo ∧ map.hiaddr = hi ∧
      ∀ op : RangeOp α, op.WellFormed → op.Ok map →
        ∃ err map', op.apply map = some (err, map') ∧ op.HasEffect map err map' := by
  have hmeets : Meets RangeOp.step (fun map op => op.WellFormed ∧ op.Ok map)
      (ndzRangemapInit lo hi) ops := meets_and (meets_of_forall hwf _) hok
  obtain ⟨map, hrun, hinv, hlo, hhi⟩ := run_total
    (fun map : NdzRangemap α => map.Inv ∧ map.loaddr = lo ∧ map.hiaddr = hi)
    (fun map op hinv h => by
      obtain ⟨err, map', happly, heff⟩ := RangeOp.apply_spec hinv.1 h.1 h.2
      obtain ⟨hinv', hlo', hhi'⟩ := RangeOp.hasEffect_inv heff
      exact ⟨map', by rw [RangeOp.step, happly]; rfl, hinv', hlo'.trans hinv.2.1, hhi'.trans hinv.2.2⟩)
    ⟨inv_ndzRangemapInit hhi, rfl, rfl⟩ hmeets
  exact ⟨map, hrun, hinv, hlo, hhi, fun op hwf hok => RangeOp.apply_spec hinv hwf hok⟩

/-- Two ranges without data are merged into one. -/
theorem rangemap_refines_merge : ∃ map, run RangeOp.step (ndzRangemapInit 0 100 : NdzRangemap Nat)
        [.alloc 0 10 none false] = some map ∧ map.Inv ∧
      map.loaddr = 0 ∧ map.hiaddr = 100 ∧
      ∀ op : RangeOp Nat, op.WellFormed → op.Ok map →
        ∃ err map', op.apply map = some (err, map') ∧ op.HasEffect map err map' := by
  refine rangemap_refines (by decide) ?_ ⟨?_, fun _ _ => trivial⟩
  · rintro op (_ | ⟨_, ⟨⟩⟩)
    exact ⟨by decide, by decide⟩
  · rintro ⟨-, ⟨-, p, hp, -⟩ | hfull⟩
    · simp [ndzRangemapInit] at hp
    · simp [ndzRangemapInit, addU64, subU64] at hfull

/-- Addresses 20 to 29 have data, and lose it when the free range between them
    and a range without data is allocated. -/
theorem merge_loses_data : ∃ map map', run RangeOp.step (ndzRangemapInit 0 100 : NdzRangemap Nat)
        [.alloc 0 10 none false, .alloc 20 10 (some 7) false] = some map ∧
      (RangeOp.alloc 10 10 none false).apply map = some (none, map') ∧
      map.get 25 = some (some 7) ∧ map'.get 25 = some none := by
  have hlost : ∃ map ∈ run RangeOp.step (ndzRangemapInit 0 100 : NdzRangemap Nat)
      [.alloc 0 10 none false, .alloc 20 10 (some 7) false],
      ∃ r ∈ (RangeOp.alloc 10 10 none false).apply map,
        r.1 = none ∧ map.get 25 = some (some 7) ∧ r.2.get 25 = some none := by
    decide +kernel
  obtain ⟨map, hmap, ⟨err, map'⟩, happly, rfl, hget⟩ := hlost
  exact ⟨map, map', hmap, happly, hget⟩

end Emulab.Imagezip
