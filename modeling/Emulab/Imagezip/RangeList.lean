import Emulab.Imagezip.RangeMap
import Emulab.Lib.LinkedList

/-! # Range maps in memory

  The list of a range map as it is in memory, with nodes that are allocated
  and freed, and the hint as what it is: the address of a link, which may be
  the `next` field of a node. A map is searched and changed by calls of its
  operations; calls made by the function of an iteration come between those
  that the iteration makes itself.
-/

namespace Emulab.Imagezip

open MachineInt IntervalMap LinkedList Machine List Option

variable {α : Type}

/-! ## Section 1: The map and its operations -/

structure LinkedRangemap (α : Type) where
  list : Memory (NdzRange α)
  /-- The link that the next search begins at. -/
  hint : Link
  loaddr : Nat
  hiaddr : Nat
  /-- Counts the changes of the map. -/
  gen : Nat
  entries : Nat
  sectors : Nat

namespace LinkedRangemap

def init (lo hi : Nat) : LinkedRangemap α :=
  { list := { head := none, heap := fun _ => none }, hint := .head, loaddr := lo, hiaddr := hi,
    gen := 1, entries := 0, sectors := 0 }

/-- The search loop of `ndz_rangemap_lookup` from a link on: the range that contains the address,
    the range in front of it, and where the hint is left. -/
def searchFrom (list : Memory (NdzRange α)) (addr : Nat) :
    (fuel : Nat) → (prange : Link) → (oprange : Option Link) → Option (Option Nat × Option Nat × Link)
  | 0, _, _ => none
  | fuel + 1, prange, oprange => do
    let range ← ← list.deref prange
    let node ← list.heap range
    if addr ≤ node.val.last then
      -- the link is cast to the range that it is in
      let prev := prange.owner
      if addr < node.val.start then
        some (none, prev, oprange.getD prange)
      else
        some (some range, prev, prange)
    else if node.next.isNone then
      some (none, some range, prange)
    else
      searchFrom list addr fuel (.next range) (some prange)

/-- The assertion that the hint is pointing where it should. -/
def hintAsserted (list : Memory (NdzRange α)) (range prev : Option Nat) (hint : Link) : Option Bool := do
  let at_ ← list.deref hint
  match range, prev with
  | some range, _ => some (at_ = some range)
  | none, some prev => some (at_ = some prev)
  | none, none => some true

/-- `ndz_rangemap_lookup`: the range that contains the address, the preceding range, and the map
    with its new hint. -/
def lookup (map : LinkedRangemap α) (fuel addr : Nat) : Option (Option Nat × Option Nat × LinkedRangemap α) := do
  let restart ←
    match ← map.list.deref map.hint with
    | none => some true
    | some p => (map.list.heap p).map fun node => decide (addr < node.val.start)
  if restart ∧ map.list.head.isNone then
    some (none, none, { map with hint := .head })
  else do
    let (range, prev, hint) ←
      searchFrom map.list addr fuel (if restart then .head else map.hint) none
    if ← hintAsserted map.list range prev hint then
      some (range, prev, { map with hint := hint })
    else
      none

/-- `ndz_rangemap_overlap`: the first range that overlaps `[addr, addr + size - 1]`. -/
def overlap (map : LinkedRangemap α) (fuel addr size : Nat) : Option (Option Nat × LinkedRangemap α) := do
  let eaddr := subU64 (addU64 addr size) 1
  let (range, prev, map) ← map.lookup fuel addr
  match range with
  | some range => some (some range, map)
  | none =>
    match ← map.list.deref (.behind prev) with
    | none => some (none, map)
    | some range => do
      let node ← map.list.heap range
      if eaddr < node.val.start then some (none, map) else some (some range, map)

/-- The range that a pointer points to, if it is not `NULL`. -/
def rangeAt (list : Memory (NdzRange α)) : Option Nat → Option (Option (NdzRange α))
  | none => some none
  | some p => (list.heap p).map fun node => some node.val

/-- `ndz_range_alloc` returns an address that is not in use, or none. -/
def rangeAlloc (list : Memory (NdzRange α)) (fresh : Option Nat) : Option Nat :=
  fresh.filter fun p => (list.heap p).isNone

/-- Merge `[addr, eaddr]` with the range `prev` in front of it, and if they abut with `next`
    behind it, too. -/
def mergePrev (map : LinkedRangemap α) (prev : Nat) (next : Option Nat)
    (nextRange : Option (NdzRange α)) (eaddr : Nat) : Option (LinkedRangemap α) := do
  let list ← map.list.modify prev fun range => { range with last := eaddr }
  let map := { map with list := list }
  let map ←
    match next, nextRange with
    | some next, some range =>
      if addU64 eaddr 1 = range.start then do
        let list ← map.list.modify prev fun range' => { range' with last := range.last }
        let list ← list.store (.next prev) (← list.deref (.next next))
        let list ← list.free next
        some { map with list := list, entries := subU64 map.entries 1 }
      else
        some map
    | _, _ => some map
  -- if hint currently points to prev, leave it
  let at_ ← map.list.deref map.hint
  some (if at_ = some prev then map else { map with hint := .next prev })

/-- `ndz_rangemap_alloc`: mark `[addr, addr + size - 1]` as allocated with the given data. A new
    range is put at `fresh`, if that is not in use. -/
def alloc (map : LinkedRangemap α) (fuel addr size : Nat) (data : Option α)
    (fresh : Option Nat) : Option (Option Errno × LinkedRangemap α) := do
  let eaddr := subU64 (addU64 addr size) 1
  if eaddr < addr ∨ addr < map.loaddr ∨ map.hiaddr < eaddr then
    some (some .EINVAL, map)
  else do
    let (range, prev, map) ← map.lookup fuel addr
    if range.isSome then
      some (some .EINVAL, map)
    else do
      let next ← map.list.deref (.behind prev)
      let prevRange ← rangeAt map.list prev
      let nextRange ← rangeAt map.list next
      if nextRange.any fun next => next.start ≤ eaddr then
        some (some .EINVAL, map)
      else
        let abutsPrev := prevRange.any fun prev => addU64 prev.last 1 = addr
        let abutsNext := nextRange.any fun next => addU64 eaddr 1 = next.start
        if data.isNone ∧ (abutsPrev ∧ prevRange.any (fun prev => prev.data.isNone) ∨
            abutsNext ∧ nextRange.any (fun next => next.data.isNone)) then do
          let map ←
            match abutsPrev, prev, next with
            | true, some prev, next => mergePrev map prev next nextRange eaddr
            | _, prev, some next => do
              let list ← map.list.modify next fun range => { range with start := addr }
              some { map with list := list, hint := .behind prev }
            | _, _, none => some map
          some (none, { map with gen := addU64 map.gen 1, sectors := addU64 map.sectors size })
        else
          match rangeAlloc map.list fresh with
          | none => some (some .ENOMEM, map)
          | some p => do
            let list := map.list.write p ⟨next, { start := addr, last := eaddr, data := data }⟩
            let list ← list.store (.behind prev) (some p)
            some (none, { map with
              list := list
              hint := .behind prev
              gen := addU64 map.gen 1
              entries := addU64 map.entries 1
              sectors := addU64 map.sectors size })

/-- Trim `[addr, eaddr]` off the range at `range`, which contains it, or split the range around it. -/
def trim (map : LinkedRangemap α) (prev : Option Nat) (range : Nat) (node : Node (NdzRange α))
    (addr eaddr size : Nat) (fresh : Option Nat) :
    Option (Option Errno × LinkedRangemap α) := do
  if node.val.start = addr then
    if node.val.last = eaddr then do
      let list ← map.list.store (.behind prev) node.next
      let list ← list.free range
      some (none, { map with
        list := list
        entries := subU64 map.entries 1
        hint := .behind prev
        gen := addU64 map.gen 1
        sectors := subU64 map.sectors size })
    else do
      let list ← map.list.modify range fun range => { range with start := addU64 eaddr 1 }
      some (none, { map with
        list := list
        hint := .behind prev
        gen := addU64 map.gen 1
        sectors := subU64 map.sectors size })
  else if node.val.last = eaddr then do
    let list ← map.list.modify range fun range => { range with last := subU64 addr 1 }
    some (none, { map with
      list := list
      hint := .behind prev
      gen := addU64 map.gen 1
      sectors := subU64 map.sectors size })
  else
    match rangeAlloc map.list fresh with
    | none => some (some .ENOMEM, map)
    | some p => do
      let list := map.list.write p ⟨node.next, { start := addU64 eaddr 1, last := node.val.last, data := none }⟩
      let list ← list.store (.next range) (some p)
      let list ← list.modify range fun range => { range with last := subU64 addr 1 }
      some (none, { map with
        list := list
        hint := .next range
        gen := addU64 map.gen 1
        entries := addU64 map.entries 1
        sectors := subU64 map.sectors size })

/-- `ndz_rangemap_dealloc`: mark `[addr, addr + size - 1]` as unallocated. -/
def dealloc (map : LinkedRangemap α) (fuel addr size : Nat) (fresh : Option Nat) :
    Option (Option Errno × LinkedRangemap α) := do
  let eaddr := subU64 (addU64 addr size) 1
  if eaddr < addr ∨ addr < map.loaddr ∨ map.hiaddr < eaddr then
    some (some .EINVAL, map)
  else do
    let (range, prev, map) ← map.lookup fuel addr
    match range with
    | none => some (some .EINVAL, map)
    | some range => do
      let node ← map.list.heap range
      if node.val.last < eaddr then
        some (some .EINVAL, map)
      else if node.val.data.isSome then
        some (some .EBUSY, map)
      else
        map.trim prev range node addr eaddr size fresh

end LinkedRangemap

/-! ## Section 2: Calls -/

/-- An iteration whose function has been called: the variables of `ndz_rangemap_iterate`. -/
structure Iteration where
  /-- The range that the function has been called with. -/
  range : Nat
  /-- Its last address, when the function was called. -/
  addr : Nat
  /-- The count of changes, when the function was called. -/
  gen : Nat

/-- A map, and the iterations that are under way, the innermost first. -/
structure RangeSystem (α : Type) where
  map : LinkedRangemap α
  iterations : List Iteration

inductive RangeCall (α : Type) where
  | lookup (addr : Nat)
  | overlap (addr size : Nat)
  | alloc (addr size : Nat) (data : Option α) (fresh : Option Nat)
  | dealloc (addr size : Nat) (fresh : Option Nat)
  | iterate
  /-- The function of the innermost iteration returns zero. -/
  | proceed
  /-- The function of the innermost iteration returns something else, which ends the iteration. -/
  | terminate

namespace RangeSystem

/-- Go on with the range behind a link, which becomes the hint; the iteration ends if there is none. -/
def advance (map : LinkedRangemap α) (link : Link) (outer : List Iteration) : Option (RangeSystem α) := do
  let map := { map with hint := link }
  match ← map.list.deref link with
  | none => some ⟨map, outer⟩
  | some range => do
    let node ← map.list.heap range
    some ⟨map, ⟨range, node.val.last, map.gen⟩ :: outer⟩

/-- After the function has returned zero. If it has changed the map, the range is looked up again. -/
def proceed (fuel : Nat) (map : LinkedRangemap α) (it : Iteration) (outer : List Iteration) :
    Option (RangeSystem α) := do
  if map.gen ≠ it.gen then do
    let (range, prev, map) ← map.lookup fuel it.addr
    match range, prev with
    | some range, _ => advance map (.next range) outer
    | none, none => advance map .head outer
    | none, some prev => do
      if (← map.list.deref map.hint) = some prev then advance map (.next prev) outer else none
  else
    advance map (.next it.range) outer

def step (fuel : Nat) (s : RangeSystem α) : RangeCall α → Option (RangeSystem α)
  | .lookup addr => (s.map.lookup fuel addr).map fun r => { s with map := r.2.2 }
  | .overlap addr size => (s.map.overlap fuel addr size).map fun r => { s with map := r.2 }
  | .alloc addr size data fresh =>
    (s.map.alloc fuel addr size data fresh).map fun r => { s with map := r.2 }
  | .dealloc addr size fresh =>
    (s.map.dealloc fuel addr size fresh).map fun r => { s with map := r.2 }
  | .iterate => advance s.map .head s.iterations
  | .proceed =>
    match s.iterations with
    | [] => some s
    | it :: outer => proceed fuel s.map it outer
  | .terminate => some { s with iterations := s.iterations.tail }

end RangeSystem

/-! ## Section 3: The search -/

abbrev RangeCells (α : Type) := List (Nat × NdzRange α)

/-- A scan from the head of the list: the range that contains the address, and the range in front of it. -/
def scan (addr : Nat) : (prev : Option Nat) → RangeCells α → Option Nat × Option Nat
  | prev, [] => (none, prev)
  | prev, (p, range) :: cells =>
    if addr ≤ range.last then
      (if addr < range.start then none else some p, prev)
    else
      scan addr (some p) cells

inductive Located (cells : RangeCells α) (addr : Nat) (range prev : Option Nat) (hint : Link) :
    Prop where
  /-- The address is allocated; the hint points to the range. -/
  | inside (pre : RangeCells α) (p : Nat) (r : NdzRange α) (post : RangeCells α)
      (split : cells = pre ++ (p, r) :: post) (mem : In addr r) (hrange : range = some p)
      (hprev : prev = last pre) (hhint : hint = linkBehind pre)
  /-- The address is free; the hint points to the range in front of it. -/
  | between (pre post : RangeCells α) (split : cells = pre ++ post)
      (before : ∀ c ∈ pre, c.2.last < addr) (behind : ∀ c ∈ post, addr < c.2.start)
      (hrange : range = none) (hprev : prev = last pre) (hhint : hint = linkBehind pre.dropLast)

/-- The ranges of the nodes are in order. -/
def SortedCells (cells : RangeCells α) : Prop := Sorted (cells.map Prod.snd)

variable {pre post : RangeCells α} {c : Nat × NdzRange α}

theorem sortedCells_middle : SortedCells (pre ++ c :: post) ↔ SortedCells (pre ++ post) ∧ c.2.start ≤ c.2.last ∧
      (∀ b ∈ pre, b.2.last < c.2.start) ∧ ∀ b ∈ post, c.2.last < b.2.start := by
  unfold SortedCells
  rw [map_append, map_append, map_cons, sorted_append, sorted_append, sorted_cons]
  simp only [List.mem_map, mem_cons, forall_exists_index, and_imp, forall_apply_eq_imp_iff₂]
  constructor
  · intro h
    obtain ⟨hpre, ⟨hne, hbehind, hpost⟩, hcross⟩ := h
    refine ⟨⟨hpre, hpost, ?_⟩, hne, ?_, hbehind⟩
    · intro b hb b' hb'
      exact hcross b hb b'.2 (Or.inr ⟨b', hb', rfl⟩)
    · intro b hb
      exact hcross b hb c.2 (Or.inl rfl)
  · intro h
    obtain ⟨⟨hpre, hpost, hcross⟩, hne, hbefore, hbehind⟩ := h
    refine ⟨hpre, ⟨hne, hbehind, hpost⟩, ?_⟩
    intro b hb r hr
    rcases hr with rfl | ⟨b', hb', rfl⟩
    · exact hbefore b hb
    · exact hcross b hb b' hb'

variable {addr : Nat}

theorem scan_cons_of_lt (h : c.2.last < addr) (prev : Option Nat) (cells : RangeCells α) :
    scan addr prev (c :: cells) = scan addr (some c.1) cells := if_neg (by omega)

theorem scan_append (h : ∀ c ∈ pre, c.2.last < addr)
    (prev : Option Nat) : scan addr prev (pre ++ post) = scan addr ((last pre).or prev) post := by
  induction pre generalizing prev with
  | nil => rfl
  | cons c pre ih =>
    rw [cons_append, scan_cons_of_lt (h c mem_cons_self), ih fun c' hc' => h c' (mem_cons_of_mem _ hc')]
    obtain rfl | ⟨pre', c', rfl⟩ := pre.eq_nil_or_concat
    · rfl
    · rw [concat_eq_append, ← cons_append, last_snoc, last_snoc]
      rfl

variable {cells : RangeCells α}

theorem Located.eq_scan {range prev : Option Nat} {hint : Link}
    (h : Located cells addr range prev hint) (hs : SortedCells cells) : (range, prev) = scan addr none cells := by
  cases h with
  | inside pre p r post split mem hrange hprev hhint =>
    subst split
    obtain ⟨-, -, hbefore, -⟩ := sortedCells_middle.mp hs
    have hin := mem
    unfold In at hin
    rw [scan_append fun c hc => by have := hbefore c hc; dsimp only at this; omega, or_none]
    unfold scan
    rw [if_pos hin.2, if_neg (by omega), hrange, hprev]
  | between pre post split before behind hrange hprev hhint =>
    subst split
    rw [scan_append before, or_none, hrange, hprev]
    cases post with
    | nil => rfl
    | cons c post =>
      obtain ⟨-, hne, -, -⟩ := sortedCells_middle.mp hs
      have hlt := behind c mem_cons_self
      unfold scan
      rw [if_pos (by omega), if_pos hlt]

variable {list : Memory (NdzRange α)}

theorem searchFrom_stop {pre : RangeCells α} {post : RangeCells α} (hlist : Holds list (pre ++ c :: post))
    (hs : SortedCells (pre ++ c :: post)) (hbefore : ∀ b ∈ pre, b.2.last < addr)
    (hle : addr ≤ c.2.last) (fuel : Nat) {oprange : Option Link}
    (hold : c.2.start ≤ addr ∨ oprange.getD (linkBehind pre) = linkBehind pre.dropLast) :
    ∃ range prev hint, LinkedRangemap.searchFrom list addr (fuel + 1) (linkBehind pre) oprange =
        some (range, prev, hint) ∧ Located (pre ++ c :: post) addr range prev hint := by
  obtain ⟨-, hne, -, hbehind⟩ := sortedCells_middle.mp hs
  unfold LinkedRangemap.searchFrom
  rw [hlist.deref]
  simp only [first_cons, bind_eq_bind, bind_some, hlist.heap_eq (p := c.1)]
  rw [if_pos hle]
  by_cases hlt : addr < c.2.start
  · -- the address is in front of the range
    rw [if_pos hlt]
    refine ⟨_, _, _, rfl, .between pre (c :: post) rfl hbefore ?_ rfl (Link.owner_behind _)
      (hold.resolve_left (by omega))⟩
    intro b hb
    rcases mem_cons.mp hb with rfl | hb
    · exact hlt
    · have := hbehind b hb
      omega
  · rw [if_neg hlt]
    exact ⟨_, _, _, rfl, .inside pre c.1 c.2 post rfl ⟨by omega, hle⟩ rfl (Link.owner_behind _) rfl⟩

variable {fuel : Nat}

theorem searchFrom_located {pre : RangeCells α} {post : RangeCells α} (hlist : Holds list (pre ++ c :: post))
    (hs : SortedCells (pre ++ c :: post)) (hbefore : ∀ b ∈ pre, b.2.last < addr)
    (hfuel : post.length < fuel) {oprange : Option Link}
    (hold : c.2.start ≤ addr ∨ oprange.getD (linkBehind pre) = linkBehind pre.dropLast) :
    ∃ range prev hint, LinkedRangemap.searchFrom list addr fuel (linkBehind pre) oprange =
        some (range, prev, hint) ∧ Located (pre ++ c :: post) addr range prev hint := by
  induction post generalizing pre c fuel oprange with
  | nil =>
    obtain ⟨fuel, rfl⟩ : ∃ k, fuel = k + 1 := ⟨fuel - 1, by omega⟩
    by_cases hle : addr ≤ c.2.last
    · exact searchFrom_stop hlist hs hbefore hle fuel hold
    · -- this has been the last range
      unfold LinkedRangemap.searchFrom
      rw [hlist.deref]
      simp only [first_cons, bind_eq_bind, bind_some, hlist.heap_eq (p := c.1)]
      rw [if_neg hle, if_pos (by simp)]
      refine ⟨_, _, _, rfl, .between (pre ++ [c]) [] (by simp) ?_ (by simp) rfl (by simp) (by simp)⟩
      intro b hb
      rcases mem_append.mp hb with hb | hb
      · exact hbefore b hb
      · rw [mem_singleton.mp hb]
        omega
  | cons c' post ih =>
    obtain ⟨fuel, rfl⟩ : ∃ k, fuel = k + 1 := ⟨fuel - 1, by omega⟩
    by_cases hle : addr ≤ c.2.last
    · exact searchFrom_stop hlist hs hbefore hle fuel hold
    · have hsnoc : pre ++ c :: c' :: post = (pre ++ [c]) ++ c' :: post := by simp
      have hbefore' : ∀ b ∈ pre ++ [c], b.2.last < addr := by
        intro b hb
        rcases mem_append.mp hb with hb | hb
        · exact hbefore b hb
        · rw [mem_singleton.mp hb]
          omega
      have hold' : c'.2.start ≤ addr ∨ (some (linkBehind pre)).getD (linkBehind (pre ++ [c])) =
          linkBehind (pre ++ [c]).dropLast := Or.inr (by simp)
      rw [length_cons] at hfuel
      have hrest := ih (hsnoc ▸ hlist) (hsnoc ▸ hs) hbefore' (Nat.lt_of_succ_lt_succ hfuel) hold'
      rw [hsnoc]
      unfold LinkedRangemap.searchFrom
      rw [hlist.deref]
      simp only [first_cons, bind_eq_bind, bind_some, hlist.heap_eq (p := c.1)]
      rw [if_neg hle, if_neg (by simp)]
      rw [linkBehind_snoc] at hrest
      exact hrest

/-- The nodes of the list are in order, and the hint is a link of the list. -/
structure Linked (map : LinkedRangemap α) (cells : RangeCells α) : Prop where
  holds : Holds map.list cells
  sorted : SortedCells cells
  fits : ∀ c ∈ cells, c.2.last < 2 ^ 64
  /-- The hint is the head of the list, or in a node of it. -/
  hint : ∃ pre post, cells = pre ++ post ∧ map.hint = linkBehind pre

theorem Located.hint_split {range prev : Option Nat} {hint : Link} (h : Located cells addr range prev hint) :
    ∃ pre post, cells = pre ++ post ∧ hint = linkBehind pre := by
  cases h with
  | inside pre p r post split mem hrange hprev hhint => exact ⟨pre, _, split, hhint⟩
  | between pre post split before behind hrange hprev hhint =>
    obtain rfl | ⟨pre', c, rfl⟩ := pre.eq_nil_or_concat
    · exact ⟨[], post, split, hhint⟩
    · rw [concat_eq_append, dropLast_concat] at hhint
      exact ⟨pre', c :: post, by rw [split]; simp, hhint⟩

theorem Located.hintAsserted {range prev : Option Nat} {hint : Link} (h : Located cells addr range prev hint)
    (hlist : Holds list cells) : LinkedRangemap.hintAsserted list range prev hint = some true := by
  unfold LinkedRangemap.hintAsserted
  cases h with
  | inside pre p r post split mem hrange hprev hhint =>
    subst split
    rw [hhint, hlist.deref, hrange]
    simp
  | between pre post split before behind hrange hprev hhint =>
    subst split
    obtain rfl | ⟨pre', c, rfl⟩ := pre.eq_nil_or_concat
    · rw [hhint, hrange, hprev, dropLast_nil, hlist.deref]
      rfl
    · rw [concat_eq_append, append_assoc] at hlist
      rw [hhint, hrange, hprev, concat_eq_append, dropLast_concat, hlist.deref, last_snoc]
      simp

variable {map : LinkedRangemap α}

/-- A lookup succeeds from any hint, and its assertion holds. -/
theorem Linked.lookup (h : Linked map cells) (hfuel : cells.length ≤ fuel) (addr : Nat) :
    ∃ range prev hint, map.lookup fuel addr = some (range, prev, { map with hint := hint }) ∧
      Located cells addr range prev hint ∧ Linked { map with hint := hint } cells := by
  suffices hsearch : ∃ range prev hint, map.lookup fuel addr =
      some (range, prev, { map with hint := hint }) ∧ Located cells addr range prev hint by
    obtain ⟨range, prev, hint, hlookup, hlocated⟩ := hsearch
    exact ⟨range, prev, hint, hlookup, hlocated, h.holds, h.sorted, h.fits, hlocated.hint_split⟩
  -- the loop from the link behind `pre`
  have hloop : ∀ pre c post, cells = pre ++ c :: post → (∀ b ∈ pre, b.2.last < addr) →
      (c.2.start ≤ addr ∨ pre = []) → ∃ range prev hint,
      LinkedRangemap.searchFrom map.list addr fuel (linkBehind pre) none =
        some (range, prev, hint) ∧ Located cells addr range prev hint := by
    intro pre c post hsplit hbefore hold
    subst hsplit
    apply searchFrom_located h.holds h.sorted hbefore (by rw [length_append, length_cons] at hfuel; omega)
    apply hold.imp_right
    intro hnil
    rw [hnil]
    rfl
  have hdone : ∀ link, (∃ range prev hint,
      LinkedRangemap.searchFrom map.list addr fuel link none = some (range, prev, hint) ∧
        Located cells addr range prev hint) → ∃ range prev hint,
      (do
        let (range, prev, hint) ← LinkedRangemap.searchFrom map.list addr fuel link none
        if ← LinkedRangemap.hintAsserted map.list range prev hint then
          some (range, prev, { map with hint := hint })
        else
          none) = some (range, prev, { map with hint := hint }) ∧
        Located cells addr range prev hint := by
    intro link hfound
    obtain ⟨range, prev, hint, hsearch, hlocated⟩ := hfound
    refine ⟨range, prev, hint, ?_, hlocated⟩
    simp [hsearch, hlocated.hintAsserted h.holds]
  -- a search from the head
  have hhead : ∀ c rest, cells = c :: rest → ∃ range prev hint,
      LinkedRangemap.searchFrom map.list addr fuel .head none = some (range, prev, hint) ∧
        Located cells addr range prev hint :=
    fun c rest hcells => hloop [] c rest hcells (fun _ hb => nomatch hb) (Or.inr rfl)
  obtain ⟨pre, post, hsplit, hhint⟩ := h.hint
  have hlist : Holds map.list (pre ++ post) := hsplit ▸ h.holds
  have hfirst := h.holds.head
  unfold LinkedRangemap.lookup
  rw [hhint, hlist.deref]
  cases post with
  | nil =>
    simp only [first_nil, bind_eq_bind, bind_some, true_and, if_true]
    cases hcells : cells with
    | nil =>
      rw [hcells] at hfirst
      rw [hfirst, first_nil, isNone_none, if_pos rfl]
      exact ⟨_, _, _, rfl, .between [] [] rfl (fun _ hb => nomatch hb) (fun _ hb => nomatch hb)
        rfl rfl rfl⟩
    | cons c rest =>
      rw [hcells] at hfirst
      rw [hfirst, if_neg (by simp)]
      rw [← hcells]
      exact hdone _ (hhead c rest hcells)
  | cons c post =>
    simp only [first_cons, bind_eq_bind, bind_some, hlist.heap_eq (p := c.1), map_some]
    by_cases hlt : addr < c.2.start
    · obtain ⟨c', rest, hcells⟩ := exists_cons_of_ne_nil (l := cells) (by rw [hsplit]; simp)
      rw [hcells] at hfirst
      rw [hfirst, decide_eq_true hlt, if_neg (by simp)]
      exact hdone _ (hhead c' rest hcells)
    · rw [decide_eq_false hlt, if_neg (by simp)]
      apply hdone _ (hloop pre c post hsplit ?_ (Or.inl (by omega)))
      intro b hb
      have hs := h.sorted
      rw [hsplit] at hs
      have := (sortedCells_middle.mp hs).2.2.1 b hb
      omega

/-- The first range that does not end before `addr`, unless it begins behind `eaddr`. -/
def scanOverlap (addr eaddr : Nat) : RangeCells α → Option Nat
  | [] => none
  | (p, range) :: cells =>
    if addr ≤ range.last then
      if addr < range.start ∧ eaddr < range.start then none else some p
    else
      scanOverlap addr eaddr cells

theorem scanOverlap_append {addr eaddr : Nat} (h : ∀ c ∈ pre, c.2.last < addr) :
    scanOverlap addr eaddr (pre ++ post) = scanOverlap addr eaddr post := by
  induction pre with
  | nil => rfl
  | cons c pre ih =>
    have hlt := h c mem_cons_self
    rw [cons_append]
    unfold scanOverlap
    rw [if_neg (by omega), ih fun c' hc' => h c' (mem_cons_of_mem _ hc')]
    cases post <;> rfl

variable {r : NdzRange α}

theorem scanOverlap_inside {addr eaddr p : Nat} (hs : SortedCells (pre ++ (p, r) :: post)) (hin : In addr r) :
    scanOverlap addr eaddr (pre ++ (p, r) :: post) = some p := by
  obtain ⟨-, -, hbefore, -⟩ := sortedCells_middle.mp hs
  unfold In at hin
  rw [scanOverlap_append fun c hc => by have := hbefore c hc; dsimp only at this; omega]
  unfold scanOverlap
  rw [if_pos hin.2, if_neg (by omega)]

theorem scanOverlap_behind {addr eaddr : Nat} {post : RangeCells α}
    (hlt : addr < c.2.start) (hne : c.2.start ≤ c.2.last) :
    scanOverlap addr eaddr (c :: post) = if eaddr < c.2.start then none else some c.1 := by
  have hle : addr ≤ c.2.last := by omega
  unfold scanOverlap
  rw [if_pos hle]
  by_cases hend : eaddr < c.2.start
  · rw [if_pos hend, if_pos ⟨hlt, hend⟩]
  · rw [if_neg hend, if_neg fun hboth => hend hboth.2]

theorem Linked.overlap (h : Linked map cells) (hfuel : cells.length ≤ fuel) (addr size : Nat) :
    ∃ hint, map.overlap fuel addr size =
        some (scanOverlap addr (subU64 (addU64 addr size) 1) cells, { map with hint := hint }) ∧
      Linked { map with hint := hint } cells := by
  obtain ⟨range, prev, hint, hlookup, hlocated, hlinked⟩ := h.lookup hfuel addr
  refine ⟨hint, ?_, hlinked⟩
  unfold LinkedRangemap.overlap
  generalize subU64 (addU64 addr size) 1 = eaddr
  simp only [hlookup, bind_eq_bind, bind_some]
  have hs := h.sorted
  have hlist := h.holds
  cases hlocated with
  | inside pre p r post split mem hrange hprev hhint =>
    subst split
    rw [hrange, scanOverlap_inside hs mem]
  | between pre post split before behind hrange hprev hhint =>
    subst split
    have hderef := hlist.deref
    unfold linkBehind at hderef
    rw [scanOverlap_append before, hrange, hprev]
    simp only [hderef, bind_some]
    cases post with
    | nil =>
      simp only [first_nil]
      unfold scanOverlap
      rfl
    | cons c post =>
      obtain ⟨-, hne, -, -⟩ := sortedCells_middle.mp hs
      have hnode := hlist.heap_eq (p := c.1)
      rw [scanOverlap_behind (behind c mem_cons_self) hne]
      simp only [first_cons, hnode]
      rw [bind_some]
      by_cases hend : eaddr < c.2.start
      · rw [if_pos hend, if_pos hend]
      · rw [if_neg hend, if_neg hend]

/-! ## Section 4: What a call changes -/

/-- After a call the nodes are in order again. If there has been no change, they are the same. -/
def Follows (map : LinkedRangemap α) (cells : RangeCells α) (map' : LinkedRangemap α) : Prop :=
  ∃ cells', Linked map' cells' ∧ cells'.length ≤ cells.length + 1 ∧
    (map'.gen = map.gen ∧ cells' = cells ∨ map'.gen = addU64 map.gen 1)

theorem follows_hint {hint : Link}
    (h : Linked { map with hint := hint } cells) : Follows map cells { map with hint := hint } :=
  ⟨cells, h, Nat.le_succ _, Or.inl ⟨rfl, rfl⟩⟩

theorem rangeAt_first (h : Holds list (pre ++ post)) :
    LinkedRangemap.rangeAt list (first post) = some (post.head?.map Prod.snd) := by
  cases post with
  | nil => rfl
  | cons c post =>
    unfold LinkedRangemap.rangeAt
    simp [h.heap_eq (p := c.1)]

theorem rangeAt_last (h : Holds list (pre ++ post)) :
    LinkedRangemap.rangeAt list (last pre) = some (pre.getLast?.map Prod.snd) := by
  obtain rfl | ⟨pre', c, rfl⟩ := pre.eq_nil_or_concat
  · rfl
  · rw [concat_eq_append, append_assoc, singleton_append] at h
    unfold LinkedRangemap.rangeAt
    rw [concat_eq_append, last_snoc, List.getLast?_append]
    simp [h.heap_eq (p := c.1)]

/-- The range `[addr, eaddr]` is between the nodes of `pre` and those of `post`. -/
structure CellGap (pre post : RangeCells α) (addr eaddr : Nat) : Prop where
  sorted : SortedCells (pre ++ post)
  fits : ∀ c ∈ pre ++ post, c.2.last < 2 ^ 64
  before : ∀ c ∈ pre, c.2.last < addr
  behind : ∀ c ∈ post, eaddr < c.2.start
  le : addr ≤ eaddr
  eaddr_lt : eaddr < 2 ^ 64

theorem CellGap.insert {addr eaddr : Nat}
    (hgap : CellGap pre post addr eaddr) (hlist : Holds list (pre ++ post)) {p : Nat}
    (hfree : list.heap p = none) (data : Option α) :
    ∃ list', (list.write p ⟨first post, ⟨addr, eaddr, data⟩⟩).store (linkBehind pre) (some p) =
        some list' ∧
      Holds list' (pre ++ (p, ⟨addr, eaddr, data⟩) :: post) ∧
      SortedCells (pre ++ (p, ⟨addr, eaddr, data⟩) :: post) ∧
      ∀ c ∈ pre ++ (p, ⟨addr, eaddr, data⟩) :: post, c.2.last < 2 ^ 64 := by
  obtain ⟨list', hstore, hholds⟩ := hlist.insert hfree ⟨addr, eaddr, data⟩
  refine ⟨list', hstore, hholds, ?_, ?_⟩
  · exact sortedCells_middle.mpr ⟨hgap.sorted, hgap.le, hgap.before, hgap.behind⟩
  · intro c hc
    rcases mem_append.mp hc with hc | hc
    · exact hgap.fits c (mem_append_left _ hc)
    · rcases mem_cons.mp hc with rfl | hc
      · exact hgap.eaddr_lt
      · exact hgap.fits c (mem_append_right _ hc)

theorem CellGap.extendNext {n addr eaddr : Nat} (hgap : CellGap pre ((n, r) :: post) addr eaddr) :
    SortedCells (pre ++ (n, { r with start := addr }) :: post) ∧
      ∀ c ∈ pre ++ (n, { r with start := addr }) :: post, c.2.last < 2 ^ 64 := by
  obtain ⟨hsorted, hne, -, hbehind⟩ := sortedCells_middle.mp hgap.sorted
  have hlt := hgap.behind _ mem_cons_self
  have hle := hgap.le
  dsimp only at hne hlt hbehind
  refine ⟨sortedCells_middle.mpr ⟨hsorted, by dsimp only; omega, hgap.before, hbehind⟩, ?_⟩
  intro c hc
  rcases mem_append.mp hc with hc | hc
  · exact hgap.fits c (mem_append_left _ hc)
  · rcases mem_cons.mp hc with rfl | hc
    · exact hgap.fits (n, r) (by simp)
    · exact hgap.fits c (by simp [hc])

theorem CellGap.extendPrev {p addr eaddr : Nat}
    (mid : RangeCells α) (last : Nat) (hgap : CellGap (pre ++ [(p, r)]) (mid ++ post) addr eaddr)
    (hle : r.start ≤ last) (hlt : last < 2 ^ 64) (hbehind : ∀ c ∈ post, last < c.2.start) :
    SortedCells (pre ++ (p, { r with last := last }) :: post) ∧
      ∀ c ∈ pre ++ (p, { r with last := last }) :: post, c.2.last < 2 ^ 64 := by
  have hsorted := hgap.sorted
  rw [append_assoc, singleton_append] at hsorted
  obtain ⟨hrest, -, hbefore, -⟩ := sortedCells_middle.mp hsorted
  have hsub : SortedCells (pre ++ post) := by
    unfold SortedCells at hrest ⊢
    rw [map_append, map_append, sorted_append, sorted_append] at hrest
    rw [map_append, sorted_append]
    obtain ⟨hpre, ⟨-, hpost, -⟩, hcross⟩ := hrest
    exact ⟨hpre, hpost, fun b hb b' hb' => hcross b hb b' (mem_append_right _ hb')⟩
  refine ⟨sortedCells_middle.mpr ⟨hsub, hle, hbefore, hbehind⟩, ?_⟩
  intro c hc
  rcases mem_append.mp hc with hc | hc
  · exact hgap.fits c (by simp [hc])
  · rcases mem_cons.mp hc with rfl | hc
    · exact hlt
    · exact hgap.fits c (by simp [hc])

/-- The range is merged with the one in front of it. -/
theorem mergePrev_linked (map : LinkedRangemap α) {p addr eaddr : Nat}
    (hlist : Holds map.list (pre ++ (p, r) :: post))
    (hgap : CellGap (pre ++ [(p, r)]) post addr eaddr) (hhint : map.hint = linkBehind pre) :
    ∃ map' cells', map.mergePrev p (first post) (post.head?.map Prod.snd) eaddr = some map' ∧
      Linked map' cells' ∧ cells'.length ≤ (pre ++ (p, r) :: post).length ∧
      map'.gen = map.gen := by
  have hle : r.start ≤ r.last := by
    have hsorted := hgap.sorted
    rw [append_assoc, singleton_append] at hsorted
    exact (sortedCells_middle.mp hsorted).2.1
  have hlt := hgap.before (p, r) (by simp)
  have haddr := hgap.le
  dsimp only at hlt
  obtain ⟨list₁, hmod₁, hlist₁⟩ := hlist.modify fun range => { range with last := eaddr }
  -- the hint stays where it is, because it points to the range
  have hderef : ∀ {list : Memory (NdzRange α)} {r' : NdzRange α} {post' : RangeCells α},
      Holds list (pre ++ (p, r') :: post') → list.deref map.hint = some (some p) := by
    intro list r' post' h
    rw [hhint, h.deref, first_cons]
  unfold LinkedRangemap.mergePrev
  rw [hmod₁]
  cases post with
  | nil =>
    obtain ⟨hsorted, hfits⟩ := hgap.extendPrev [] eaddr (by omega) hgap.eaddr_lt
      (fun c hc => nomatch hc)
    refine ⟨{ map with list := list₁ }, _, ?_, ⟨hlist₁, hsorted, hfits, pre, _, rfl, hhint⟩, by simp, rfl⟩
    simp [hderef hlist₁]
  | cons c post =>
    have hsecond := hgap.behind c mem_cons_self
    by_cases habut : addU64 eaddr 1 = c.2.start
    · -- the range behind goes, too
      obtain ⟨list₂, hmod₂, hlist₂⟩ := hlist₁.modify fun range => { range with last := c.2.last }
      have hsnoc : ∀ r' : NdzRange α, pre ++ (p, r') :: c :: post =
          (pre ++ [(p, r')]) ++ c :: post := fun r' => by simp
      have hnext : list₂.deref (.next c.1) = some (first post) := by
        have hsplit : ∀ r' : NdzRange α, pre ++ (p, r') :: c :: post =
            (pre ++ [(p, r')] ++ [c]) ++ post := fun r' => by simp
        rw [hsplit] at hlist₂
        have hderef₂ := hlist₂.deref
        rwa [linkBehind_snoc] at hderef₂
      rw [hsnoc] at hlist₂
      obtain ⟨list₃, list₄, hstore, hfree, hlist₄⟩ := hlist₂.remove (p := c.1)
      rw [linkBehind_snoc] at hstore
      rw [append_assoc, singleton_append] at hlist₄
      have hsorted₂ := hgap.sorted
      obtain ⟨-, hne, -, hbehind⟩ := sortedCells_middle.mp hsorted₂
      obtain ⟨hsorted, hfits⟩ := hgap.extendPrev [c] c.2.last (by omega)
        (hgap.fits c (by simp)) hbehind
      refine ⟨{ map with list := list₄, entries := subU64 map.entries 1 }, _, ?_,
        ⟨hlist₄, hsorted, hfits, pre, _, rfl, hhint⟩, by simp, rfl⟩
      simp [habut, hmod₂, hnext, hstore, hfree, hderef hlist₄]
    · obtain ⟨hsorted, hfits⟩ := hgap.extendPrev [] eaddr (by omega) hgap.eaddr_lt
        hgap.behind
      refine ⟨{ map with list := list₁ }, _, ?_, ⟨hlist₁, hsorted, hfits, pre, _, rfl, hhint⟩, by simp, rfl⟩
      simp [habut, hderef hlist₁]

theorem rangeAlloc_some {fresh : Option Nat} {p : Nat}
    (h : LinkedRangemap.rangeAlloc list fresh = some p) : list.heap p = none := by
  unfold LinkedRangemap.rangeAlloc at h
  exact isNone_iff_eq_none.mp (filter_eq_some_iff.mp h).2

/-- An allocation. -/
theorem Linked.alloc (h : Linked map cells) (hfuel : cells.length ≤ fuel) (addr size : Nat) (data : Option α)
    (fresh : Option Nat) :
    ∃ err map', map.alloc fuel addr size data fresh = some (err, map') ∧ Follows map cells map' := by
  obtain ⟨range, prev, hint, hlookup, hlocated, hlinked⟩ := h.lookup hfuel addr
  have headdr : subU64 (addU64 addr size) 1 < 2 ^ 64 := Nat.mod_lt _ (by decide)
  unfold LinkedRangemap.alloc
  generalize subU64 (addU64 addr size) 1 = eaddr at headdr
  dsimp only
  by_cases hbounds : eaddr < addr ∨ addr < map.loaddr ∨ map.hiaddr < eaddr
  · rw [if_pos hbounds]
    exact ⟨_, _, rfl, follows_hint h⟩
  rw [if_neg hbounds, hlookup]
  simp only [bind_eq_bind]
  rw [bind_some]
  dsimp only
  cases hlocated with
  | inside pre p r post split mem hrange hprev hhint =>
    rw [hrange, isSome_some, if_pos rfl]
    exact ⟨_, _, rfl, follows_hint hlinked⟩
  | between pre post split before behind hrange hprev hhint =>
    subst split
    have hlist := h.holds
    have hderef : map.list.deref (.behind (last pre)) = some (first post) := hlist.deref
    rw [hrange, isSome_none, if_neg (by simp), hprev, hderef, bind_some,
      rangeAt_last hlist, bind_some, rangeAt_first hlist, bind_some]
    by_cases hnext : (post.head?.map Prod.snd).any fun next => next.start ≤ eaddr
    · rw [if_pos hnext]
      exact ⟨_, _, rfl, follows_hint hlinked⟩
    rw [if_neg hnext]
    -- the range is between the nodes
    have hgap : CellGap pre post addr eaddr := by
      refine ⟨h.sorted, h.fits, before, ?_, by omega, headdr⟩
      intro c hc
      cases post with
      | nil => cases hc
      | cons c₀ post =>
        obtain ⟨-, hne, -, hbehind⟩ := sortedCells_middle.mp h.sorted
        have hfirst : eaddr < c₀.2.start := by simpa using hnext
        rcases mem_cons.mp hc with rfl | hc
        · exact hfirst
        · have := hbehind c hc
          omega
    split
    · -- the range is merged with a neighbour
      rename_i hmerge
      cases habut : (pre.getLast?.map Prod.snd).any fun prev => addU64 prev.last 1 = addr with
      | true =>
        obtain rfl | ⟨pre, c, rfl⟩ := pre.eq_nil_or_concat
        · cases habut
        rw [concat_eq_append] at *
        rw [dropLast_concat] at hhint
        have hlist' : Holds map.list (pre ++ c :: post) := by
          rwa [append_assoc, singleton_append] at hlist
        obtain ⟨map', cells', hprevMerge, hlinked', hlen, hgen⟩ := mergePrev_linked
          { map with hint := hint } (p := c.1) (r := c.2) hlist' hgap hhint
        rw [last_snoc]
        dsimp only
        rw [hprevMerge, bind_some]
        refine ⟨_, _, rfl, cells', ⟨hlinked'.holds, hlinked'.sorted, hlinked'.fits, hlinked'.hint⟩, ?_, Or.inr ?_⟩
        · rw [append_assoc, singleton_append]
          exact Nat.le_succ_of_le hlen
        · dsimp only
          rw [hgen]
      | false =>
        cases post with
        | nil =>
          rw [habut] at hmerge
          simp at hmerge
        | cons c post =>
          obtain ⟨list', hmod, hlist'⟩ := hlist.modify (p := c.1) fun range =>
            { range with start := addr }
          obtain ⟨hsorted, hfits⟩ := hgap.extendNext
          dsimp only [first_cons]
          rw [hmod, bind_some, bind_some]
          refine ⟨_, _, rfl, _, ⟨hlist', hsorted, hfits, pre, _, rfl, rfl⟩, ?_, Or.inr rfl⟩
          simp
    · split
      · exact ⟨_, _, rfl, follows_hint hlinked⟩
      · rename_i p hfresh
        obtain ⟨list', hstore, hlist', hsorted, hfits⟩ := hgap.insert hlist (rangeAlloc_some hfresh) data
        unfold linkBehind at hstore
        rw [hstore, bind_some]
        refine ⟨_, _, rfl, _, ⟨hlist', hsorted, hfits, pre, _, rfl, rfl⟩, ?_, Or.inr rfl⟩
        simp only [length_append, length_cons]
        omega

/-- A node keeps a part of its range. -/
theorem Linked.shrink {p : Nat}
    (h : Linked map (pre ++ (p, r) :: post)) (start last : Nat) (hstart : r.start ≤ start)
    (hle : start ≤ last) (hlast : last ≤ r.last) :
    SortedCells (pre ++ (p, { r with start := start, last := last }) :: post) ∧
      ∀ c ∈ pre ++ (p, { r with start := start, last := last }) :: post, c.2.last < 2 ^ 64 := by
  obtain ⟨hsorted, -, hbefore, hbehind⟩ := sortedCells_middle.mp h.sorted
  refine ⟨sortedCells_middle.mpr ⟨hsorted, hle, ?_, ?_⟩, ?_⟩
  · intro c hc
    exact lt_of_lt_of_le (hbefore c hc) hstart
  · intro c hc
    exact lt_of_le_of_lt hlast (hbehind c hc)
  · intro c hc
    rcases mem_append.mp hc with hc | hc
    · exact h.fits c (mem_append_left _ hc)
    · rcases mem_cons.mp hc with rfl | hc
      · exact lt_of_le_of_lt hlast (h.fits (p, r) (by simp))
      · exact h.fits c (by simp [hc])

/-- What is left of a range of which something has been deallocated. -/
structure Leaves (r : NdzRange α) (new : RangeCells α) : Prop where
  length_le : new.length ≤ 2
  within : ∀ c ∈ new, r.start ≤ c.2.start ∧ c.2.last ≤ r.last
  size_lt : size (new.map Prod.snd) < r.last + 1 - r.start

/-- A node is left as it is, or other nodes take its place. -/
def Replaces (map : LinkedRangemap α) (p : Nat) (r : NdzRange α) (new : RangeCells α)
    (map' : LinkedRangemap α) : Prop :=
  map'.gen = map.gen ∧ new = [(p, r)] ∨ map'.gen = addU64 map.gen 1 ∧ Leaves r new

theorem Replaces.follows {map map' : LinkedRangemap α} {pre post new : RangeCells α} {p : Nat}
    (h : Replaces map p r new map') (hlinked : Linked map' (pre ++ new ++ post)) :
    Follows map (pre ++ (p, r) :: post) map' := by
  refine ⟨_, hlinked, ?_, ?_⟩
  · have hlen : new.length ≤ 2 := by
      rcases h with ⟨-, rfl⟩ | ⟨-, hleaves⟩
      · simp
      · exact hleaves.length_le
    simp only [length_append, length_cons]
    omega
  · rcases h with ⟨hgen, rfl⟩ | ⟨hgen, -⟩
    · exact Or.inl ⟨hgen, by simp⟩
    · exact Or.inr hgen

/-- The range that contains the addresses is trimmed or split. -/
theorem Linked.trim {p addr eaddr : Nat} (h : Linked map (pre ++ (p, r) :: post)) (hin : In addr r)
    (hle : addr ≤ eaddr) (hlast : eaddr ≤ r.last) (size : Nat) (fresh : Option Nat) :
    ∃ err map' new, map.trim (last pre) p ⟨first post, r⟩ addr eaddr size fresh = some (err, map') ∧
        Linked map' (pre ++ new ++ post) ∧ Replaces map p r new map' := by
  have hlist := h.holds
  have hr := h.fits (p, r) (by simp)
  obtain ⟨hstart, haddr⟩ := hin
  dsimp only at hr
  -- the addresses behind and in front of the hole
  have hnext : eaddr < r.last → addU64 eaddr 1 = eaddr + 1 := fun hlt =>
    Nat.mod_eq_of_lt (by omega)
  have hprev : r.start < addr → subU64 addr 1 = addr - 1 := fun hlt =>
    subU64_of_le (by omega) (by omega)
  unfold LinkedRangemap.trim
  dsimp only
  split
  · rename_i hfirst
    split
    · -- the range goes
      obtain ⟨list₁, list₂, hstore, hfree, hlist₂⟩ := hlist.remove
      unfold linkBehind at hstore
      have hsorted := (sortedCells_middle.mp h.sorted).1
      simp only [hstore, hfree, bind_eq_bind, bind_some]
      refine ⟨_, _, [], rfl, ?_, Or.inr ⟨rfl, by simp, by simp, ?_⟩⟩
      · rw [append_nil]
        refine ⟨hlist₂, hsorted, ?_, pre, _, rfl, rfl⟩
        intro c hc
        apply h.fits c
        rw [mem_append] at hc ⊢
        exact hc.imp_right (mem_cons_of_mem _)
      · simp only [map_nil, size_nil]
        omega
    · rename_i hne
      obtain ⟨list', hmod, hlist'⟩ := hlist.modify fun range =>
        { range with start := addU64 eaddr 1 }
      rw [hnext (by omega)] at hlist' hmod
      obtain ⟨hsorted, hfits⟩ := h.shrink (eaddr + 1) r.last (by omega) (by omega) le_rfl
      rw [hnext (by omega)]
      simp only [hmod, bind_eq_bind, bind_some]
      refine ⟨_, _, [(p, { r with start := eaddr + 1, last := r.last })], rfl, ?_, Or.inr ⟨rfl, by simp, ?_, ?_⟩⟩
      · rw [append_assoc]
        exact ⟨hlist', hsorted, hfits, pre, _, rfl, rfl⟩
      · simp only [mem_singleton, forall_eq]
        omega
      · simp only [map_cons, map_nil, size_cons, size_nil]
        omega
  · rename_i hfirst
    rw [hprev (by omega)]
    split
    · obtain ⟨list', hmod, hlist'⟩ := hlist.modify fun range => { range with last := addr - 1 }
      obtain ⟨hsorted, hfits⟩ := h.shrink r.start (addr - 1) le_rfl (by omega) (by omega)
      simp only [hmod, bind_eq_bind, bind_some]
      refine ⟨_, _, [(p, { r with start := r.start, last := addr - 1 })], rfl, ?_, Or.inr ⟨rfl, by simp, ?_, ?_⟩⟩
      · rw [append_assoc]
        exact ⟨hlist', hsorted, hfits, pre, _, rfl, rfl⟩
      · simp only [mem_singleton, forall_eq]
        omega
      · simp only [map_cons, map_nil, size_cons, size_nil]
        omega
    · rename_i hne
      split
      · refine ⟨_, _, [(p, r)], rfl, ?_, Or.inl ⟨rfl, rfl⟩⟩
        rw [append_assoc]
        exact h
      · -- a new range is put behind the range, which then loses its end
        rename_i q hfresh
        rw [hnext (by omega)]
        have hsnoc : ∀ r' : NdzRange α, ∀ rest, pre ++ (p, r') :: rest =
            (pre ++ [(p, r')]) ++ rest := fun r' rest => by simp
        rw [hsnoc] at hlist
        obtain ⟨list₁, hstore, hlist₁⟩ := hlist.insert (rangeAlloc_some hfresh)
          ⟨eaddr + 1, r.last, none⟩
        rw [linkBehind_snoc] at hstore
        rw [← hsnoc] at hlist₁
        obtain ⟨list₂, hmod, hlist₂⟩ := hlist₁.modify fun range => { range with last := addr - 1 }
        obtain ⟨hsorted, hfits⟩ := h.shrink r.start (addr - 1) le_rfl (by omega) (by omega)
        obtain ⟨-, -, -, hbehind⟩ := sortedCells_middle.mp h.sorted
        simp only [hstore, hmod, bind_eq_bind, bind_some]
        have hgap : CellGap (pre ++ [(p, { r with last := addr - 1 })]) post (eaddr + 1) r.last := by
          rw [hsnoc] at hsorted hfits
          refine ⟨hsorted, hfits, ?_, hbehind, by omega, hr⟩
          intro c hc
          obtain ⟨-, -, hbefore, -⟩ := sortedCells_middle.mp h.sorted
          rcases mem_append.mp hc with hc | hc
          · have := hbefore c hc
            dsimp only at this
            omega
          · rw [mem_singleton.mp hc]
            dsimp only
            omega
        have hassoc : pre ++ [(p, { r with last := addr - 1 }), (q, ⟨eaddr + 1, r.last, none⟩)] ++
            post = pre ++ (p, { r with last := addr - 1 }) :: (q, ⟨eaddr + 1, r.last, none⟩) ::
              post := by simp
        refine ⟨_, _, [(p, { r with last := addr - 1 }), (q, ⟨eaddr + 1, r.last, none⟩)], rfl, ?_,
          Or.inr ⟨rfl, by simp, ?_, ?_⟩⟩
        · rw [hassoc]
          refine ⟨hlist₂, ?_, ?_, pre ++ [(p, { r with last := addr - 1 })], _, hsnoc _ _, by rw [linkBehind_snoc]⟩
          · rw [hsnoc]
            exact sortedCells_middle.mpr ⟨hgap.sorted, hgap.le, hgap.before, hgap.behind⟩
          · intro c hc
            rw [hsnoc] at hc
            rcases mem_append.mp hc with hc | hc
            · exact hgap.fits c (mem_append_left _ hc)
            · rcases mem_cons.mp hc with rfl | hc
              · exact hr
              · exact hgap.fits c (mem_append_right _ hc)
        · intro c hc
          rw [mem_cons, mem_singleton] at hc
          rcases hc with rfl | rfl
          · dsimp only
            omega
          · dsimp only
            omega
        · simp only [map_cons, map_nil, size_cons, size_nil]
          omega

/-- A deallocation changes nothing, or takes something off the node that has the addresses. -/
theorem Linked.dealloc_cases (h : Linked map cells) (hfuel : cells.length ≤ fuel) (addr size : Nat)
    (fresh : Option Nat) :
    ∃ err map', map.dealloc fuel addr size fresh = some (err, map') ∧
      (map'.gen = map.gen ∧ Linked map' cells ∨ addr ≤ subU64 (addU64 addr size) 1 ∧
          ∃ pre p r post new, cells = pre ++ (p, r) :: post ∧ In addr r ∧
            Linked map' (pre ++ new ++ post) ∧ Replaces map p r new map') := by
  obtain ⟨range, prev, hint, hlookup, hlocated, hlinked⟩ := h.lookup hfuel addr
  unfold LinkedRangemap.dealloc
  generalize subU64 (addU64 addr size) 1 = eaddr
  dsimp only
  by_cases hbounds : eaddr < addr ∨ addr < map.loaddr ∨ map.hiaddr < eaddr
  · rw [if_pos hbounds]
    exact ⟨_, _, rfl, Or.inl ⟨rfl, h⟩⟩
  rw [if_neg hbounds, hlookup]
  simp only [bind_eq_bind]
  rw [bind_some]
  dsimp only
  cases hlocated with
  | between pre post split before behind hrange hprev hhint =>
    rw [hrange]
    exact ⟨_, _, rfl, Or.inl ⟨rfl, hlinked⟩⟩
  | inside pre p r post split mem hrange hprev hhint =>
    subst split
    rw [hrange, hprev]
    dsimp only
    rw [h.holds.heap_eq, bind_some]
    dsimp only
    split
    · exact ⟨_, _, rfl, Or.inl ⟨rfl, hlinked⟩⟩
    split
    · exact ⟨_, _, rfl, Or.inl ⟨rfl, hlinked⟩⟩
    have hle : addr ≤ eaddr := by omega
    obtain ⟨err, map', new, htrim, hlinked', hreplaces⟩ := hlinked.trim mem hle (by omega) size fresh
    exact ⟨err, map', htrim, Or.inr ⟨hle, pre, p, r, post, new, rfl, mem, hlinked', hreplaces⟩⟩

/-- A deallocation. -/
theorem Linked.dealloc (h : Linked map cells)
    (hfuel : cells.length ≤ fuel) (addr size : Nat) (fresh : Option Nat) :
    ∃ err map', map.dealloc fuel addr size fresh = some (err, map') ∧ Follows map cells map' := by
  obtain ⟨err, map', hdealloc, hcases⟩ := h.dealloc_cases hfuel addr size fresh
  refine ⟨err, map', hdealloc, ?_⟩
  rcases hcases with ⟨hgen, hlinked⟩ | ⟨-, pre, p, r, post, new, rfl, -, hlinked, hreplaces⟩
  · exact ⟨cells, hlinked, Nat.le_succ _, Or.inl ⟨hgen, rfl⟩⟩
  · exact hreplaces.follows hlinked

end Emulab.Imagezip
