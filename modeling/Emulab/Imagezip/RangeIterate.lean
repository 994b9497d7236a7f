import Emulab.Imagezip.RangeList

/-! # Iterating over a range map that is being deallocated

  The function of an iteration may deallocate parts of the range that it is
  called with: the node is removed, trimmed at either side or split. The
  iteration goes on with the range behind what is left of it, which it finds
  by looking up the last address.
-/

namespace Emulab.Imagezip

open MachineInt IntervalMap LinkedList List Option

variable {α σ : Type}

/-! ## Section 1: The iteration -/

/-- A call of `ndz_rangemap_dealloc`, and what `calloc` returns if it is called. -/
structure DeallocRequest where
  addr : Nat
  size : Nat
  fresh : Option Nat

/-- What a call of the function does: the deallocations in turn, what it returns, and
    what it leaves behind `arg`. -/
structure Callback (σ : Type) where
  requests : List DeallocRequest
  rv : Int
  arg : σ

/-- The function of an iteration that deallocates. It is given the map and the range. -/
abbrev IterateFunc (α σ : Type) := σ → LinkedRangemap α → Nat → NdzRange α → Callback σ

/-- The deallocations, in turn. -/
def deallocAll (fuel : Nat) : List DeallocRequest → LinkedRangemap α → Option (LinkedRangemap α)
  | [], map => some map
  | request :: requests, map => do
    let (_, map) ← map.dealloc fuel request.addr request.size request.fresh
    deallocAll fuel requests map

theorem deallocAll_cons {fuel : Nat} (request : DeallocRequest) {map map' : LinkedRangemap α}
    {err : Option Errno} (h : map.dealloc fuel request.addr request.size request.fresh = some (err, map'))
    (requests : List DeallocRequest) :
    deallocAll fuel (request :: requests) map = deallocAll fuel requests map' := by
  simp only [deallocAll, h, bind_eq_bind, bind_some]

/-- How an iteration has ended. -/
structure Iterated (α σ : Type) where
  rv : Int
  map : LinkedRangemap α
  arg : σ
  /-- The ranges that the function was called with. -/
  visited : RangeCells α

/-- The loop of `ndz_rangemap_iterate`, with at most so many turns. -/
def iterateLoop (fuel : Nat) (ifunc : IterateFunc α σ) :
    Nat → RangeSystem α → σ → RangeCells α → Option (Iterated α σ)
  | 0, _, _, _ => none
  | n + 1, s, arg, visited =>
    match s.iterations with
    | [] => some ⟨0, s.map, arg, visited⟩
    | it :: outer => do
      let node ← s.map.list.heap it.range
      let visited := visited ++ [(it.range, node.val)]
      let call := ifunc arg s.map it.range node.val
      let map ← deallocAll fuel call.requests s.map
      if call.rv ≠ 0 then
        some ⟨call.rv, map, call.arg, visited⟩
      else do
        let s ← RangeSystem.proceed fuel map it outer
        iterateLoop fuel ifunc n s call.arg visited

/-- `ndz_rangemap_iterate`. -/
def linkedIterate (fuel turns : Nat) (ifunc : IterateFunc α σ) (map : LinkedRangemap α) (arg : σ) :
    Option (Iterated α σ) := do
  let s ← RangeSystem.advance map .head []
  iterateLoop fuel ifunc turns s arg []

/-! ## Section 2: Going on -/

/-- The iteration at the first of some nodes, if there is one. -/
def iterationAt (gen : Nat) (post : RangeCells α) : List Iteration :=
  (post.head?.map fun c => (⟨c.1, c.2.last, gen⟩ : Iteration)).toList

variable {map : LinkedRangemap α} {pre post : RangeCells α}

theorem advance_eq (h : Linked map (pre ++ post)) : RangeSystem.advance map (linkBehind pre) [] =
      some ⟨{ map with hint := linkBehind pre }, iterationAt map.gen post⟩ := by
  unfold RangeSystem.advance
  simp only [h.holds.deref, bind_eq_bind, bind_some]
  cases post with
  | nil => rfl
  | cons c post =>
    simp only [first_cons, h.holds.heap_eq (p := c.1), bind_some]
    rfl

theorem Linked.hint_at (h : Linked map (pre ++ post)) : Linked { map with hint := linkBehind pre } (pre ++ post) :=
  ⟨h.holds, h.sorted, h.fits, pre, post, rfl, rfl⟩

theorem split_middle {β : Type} {l m l' pre post : List β} {c : β}
    (h : l ++ m ++ l' = pre ++ c :: post) (hl : c ∉ l) (hl' : c ∉ l') :
    ∃ a b, m = a ++ c :: b ∧ pre = l ++ a ∧ post = b ++ l' := by
  rw [append_assoc, append_eq_append_iff] at h
  obtain ⟨a, rfl, ha⟩ | ⟨b, rfl, hb⟩ := h
  · rw [append_eq_append_iff] at ha
    obtain ⟨b, rfl, hb⟩ | ⟨b, rfl, hb⟩ := ha
    · exact absurd (hb ▸ mem_append_right _ mem_cons_self) hl'
    · cases b with
      | nil =>
        rw [nil_append] at hb
        exact absurd (hb ▸ mem_cons_self) hl'
      | cons d b =>
        rw [cons_append, List.cons.injEq] at hb
        obtain ⟨rfl, rfl⟩ := hb
        exact ⟨a, b, rfl, rfl, rfl⟩
  · cases b with
    | nil =>
      rw [nil_append] at hb
      cases m with
      | nil =>
        rw [nil_append] at hb
        exact absurd (hb ▸ mem_cons_self) hl'
      | cons d m =>
        rw [cons_append, List.cons.injEq] at hb
        obtain ⟨rfl, rfl⟩ := hb
        exact ⟨[], m, rfl, by simp, rfl⟩
    | cons d b =>
      rw [cons_append, List.cons.injEq] at hb
      exact absurd (mem_append_right _ (hb.1 ▸ mem_cons_self)) hl

theorem append_unique {β : Type} {pre post pre' post' : List β} (h : pre ++ post = pre' ++ post')
    (P : β → Prop) (hpre : ∀ c ∈ pre, P c) (hpost : ∀ c ∈ post, ¬ P c) (hpre' : ∀ c ∈ pre', P c)
    (hpost' : ∀ c ∈ post', ¬ P c) : pre = pre' ∧ post = post' := by
  rw [append_eq_append_iff] at h
  obtain ⟨a, rfl, rfl⟩ | ⟨a, rfl, rfl⟩ := h
  · cases a with
    | nil => simp
    | cons d a => exact absurd (hpre' d (by simp)) (hpost d (by simp))
  · cases a with
    | nil => simp
    | cons d a => exact absurd (hpre d (by simp)) (hpost' d (by simp))

/-- The iteration goes on behind all that ends up to the address, if what has not been changed
    is the last node there. -/
theorem proceed_eq (h : Linked map (pre ++ post))
    {fuel : Nat} (hfuel : (pre ++ post).length ≤ fuel) (it : Iteration)
    (hsame : map.gen = it.gen → linkBehind pre = .next it.range)
    (hbefore : ∀ c ∈ pre, c.2.last ≤ it.addr) (hbehind : ∀ c ∈ post, it.addr < c.2.start) :
    ∃ map', RangeSystem.proceed fuel map it [] = some ⟨map', iterationAt map'.gen post⟩ ∧
      Linked map' (pre ++ post) := by
  unfold RangeSystem.proceed
  by_cases hgen : map.gen ≠ it.gen
  · rw [if_pos hgen]
    obtain ⟨range, prev, hint, hlookup, hlocated, hlinked⟩ := h.lookup hfuel it.addr
    rw [hlookup]
    simp only [bind_eq_bind, bind_some]
    have hnonempty : ∀ c ∈ pre ++ post, c.2.start ≤ c.2.last := fun c hc =>
      h.sorted.nonempty c.2 (mem_map_of_mem hc)
    have hnot : ∀ c ∈ post, ¬ c.2.last ≤ it.addr := by
      intro c hc
      have := hbehind c hc
      have := hnonempty c (mem_append_right _ hc)
      omega
    cases hlocated with
    | inside pre' p r post' split mem hrange hprev hhint =>
      -- the range ends at the address
      have hsorted := sortedCells_middle.mp (split ▸ h.sorted)
      have hsplit : pre = pre' ++ [(p, r)] ∧ post = post' := by
        have hin := mem
        unfold In at hin
        apply append_unique (by rw [split]; simp) (fun c => c.2.last ≤ it.addr) hbefore hnot
        · intro c hc
          rcases mem_append.mp hc with hc | hc
          · have := hsorted.2.2.1 c hc
            dsimp only at this
            omega
          · rw [mem_singleton] at hc
            subst hc
            have hmem : (p, r) ∈ pre ++ post := split ▸ by simp
            rcases mem_append.mp hmem with hmem | hmem
            · exact hbefore _ hmem
            · have := hbehind _ hmem
              dsimp only at this
              omega
        · intro c hc
          have hlt := hsorted.2.2.2 c hc
          have hne := hnonempty c (split ▸ by simp [hc])
          dsimp only at hlt
          omega
      obtain ⟨rfl, rfl⟩ := hsplit
      have hadvance := advance_eq hlinked
      rw [linkBehind_snoc] at hadvance
      rw [hrange]
      exact ⟨_, hadvance, by have := hlinked.hint_at; rwa [linkBehind_snoc] at this⟩
    | between pre' post' split before behind hrange hprev hhint =>
      have hsplit : pre = pre' ∧ post = post' := by
        apply append_unique split (fun c => c.2.last ≤ it.addr) hbefore hnot
        · intro c hc
          exact (before c hc).le
        · intro c hc
          have := behind c hc
          have := hnonempty c (split ▸ mem_append_right _ hc)
          omega
      obtain ⟨rfl, rfl⟩ := hsplit
      have hadvance := advance_eq hlinked
      rw [hrange, hprev]
      obtain rfl | ⟨pre', c, rfl⟩ := pre.eq_nil_or_concat
      · exact ⟨_, hadvance, hlinked.hint_at⟩
      · -- the assertion: the hint points to the range in front
        rw [concat_eq_append] at h hhint hadvance hlinked ⊢
        rw [dropLast_concat] at hhint
        have hderef : map.list.deref hint = some (some c.1) := by
          have hlist := h.holds
          rw [append_assoc] at hlist
          rw [hhint, hlist.deref]
          rfl
        rw [linkBehind_snoc] at hadvance
        rw [last_snoc]
        simp only [hderef, bind_some, if_true]
        exact ⟨_, hadvance, by have := hlinked.hint_at; rwa [linkBehind_snoc] at this⟩
  · rw [if_neg hgen]
    have hadvance := advance_eq h
    have hlinked := h.hint_at
    rw [hsame (not_not.mp hgen)] at hadvance hlinked
    exact ⟨_, hadvance, hlinked⟩

/-! ## Section 3: A call of the function -/

def DeallocRequest.Within (request : DeallocRequest) (r : NdzRange α) : Prop :=
  r.start ≤ request.addr ∧ subU64 (addU64 request.addr request.size) 1 ≤ r.last

/-- Nodes with addresses of the range only. -/
def PartsOf (r : NdzRange α) (parts : RangeCells α) : Prop :=
  ∀ c ∈ parts, r.start ≤ c.2.start ∧ c.2.last ≤ r.last

/-- Addresses are 64 bits wide, so there are not too many nodes. -/
theorem Linked.length_le {cells : RangeCells α} (h : Linked map cells) : cells.length ≤ 2 ^ 64 := by
  have hsize : size (cells.map Prod.snd) ≤ 2 ^ 64 - 1 + 1 - 0 := by
    apply size_le h.sorted (fun _ _ => Nat.zero_le _)
    intro r hr
    obtain ⟨c, hc, rfl⟩ := mem_map.mp hr
    have := h.fits c hc
    omega
  have hlen : ∀ l : RangeCells α, SortedCells l → l.length ≤ size (l.map Prod.snd) := by
    intro l hl
    induction l with
    | nil => exact Nat.zero_le _
    | cons c l ih =>
      have hcons := sorted_cons.mp hl
      have := ih hcons.2.2
      have := hcons.1
      rw [length_cons, map_cons, size_cons]
      omega
  have := hlen cells h.sorted
  omega

theorem Linked.dealloc_parts {pre parts post : RangeCells α}
    (h : Linked map (pre ++ parts ++ post)) {fuel : Nat} (hfuel : 2 ^ 64 ≤ fuel)
    {r : NdzRange α} (hbefore : ∀ c ∈ pre, c.2.last < r.start)
    (hbehind : ∀ c ∈ post, r.last < c.2.start) (hparts : PartsOf r parts)
    {request : DeallocRequest} (hwithin : request.Within r) :
    ∃ err map' parts', map.dealloc fuel request.addr request.size request.fresh =
        some (err, map') ∧ Linked map' (pre ++ parts' ++ post) ∧ PartsOf r parts' ∧
      (map'.gen = map.gen ∧ parts' = parts ∨ map'.gen = addU64 map.gen 1 ∧
          size (parts'.map Prod.snd) < size (parts.map Prod.snd)) := by
  obtain ⟨err, map', hdealloc, hcases⟩ := h.dealloc_cases (h.length_le.trans hfuel) request.addr
    request.size request.fresh
  rcases hcases with ⟨hgen, hlinked⟩ | ⟨hle, pre', p, q, post', new, hsplit, hin, hlinked, hreplaces⟩
  · exact ⟨err, map', parts, hdealloc, hlinked, hparts, Or.inl ⟨hgen, rfl⟩⟩
  rcases hreplaces with ⟨hgen, rfl⟩ | ⟨hgen, hleaves⟩
  · rw [append_assoc, singleton_append, ← hsplit] at hlinked
    exact ⟨err, map', parts, hdealloc, hlinked, hparts, Or.inl ⟨hgen, rfl⟩⟩
  -- the node that has the addresses is one of the parts
  unfold DeallocRequest.Within at hwithin
  unfold In at hin
  obtain ⟨a, b, rfl, rfl, rfl⟩ := split_middle hsplit
    (fun hmem => by have := hbefore _ hmem; dsimp only at this; omega)
    (fun hmem => by have := hbehind _ hmem; dsimp only at this; omega)
  have hassoc : pre ++ a ++ new ++ (b ++ post) = pre ++ (a ++ new ++ b) ++ post := by simp
  obtain ⟨hstart, hlast⟩ := hparts (p, q) (by simp)
  refine ⟨err, map', a ++ new ++ b, hdealloc, hassoc ▸ hlinked, ?_, Or.inr ⟨hgen, ?_⟩⟩
  · intro c hc
    rw [append_assoc, mem_append, mem_append] at hc
    rcases hc with hc | hc | hc
    · exact hparts c (by simp [hc])
    · obtain ⟨hstart', hlast'⟩ := hleaves.within c hc
      exact ⟨hstart.trans hstart', hlast'.trans hlast⟩
    · exact hparts c (by simp [hc])
  · have hlt := hleaves.size_lt
    simp only [map_append, map_cons, size_append, size_cons]
    omega

/-- What is left of the range after a call of the function. -/
structure Whittled (r : NdzRange α) (gen : Nat) (parts : RangeCells α) (count : Nat)
    (map' : LinkedRangemap α) (parts' : RangeCells α) : Prop where
  partsOf : PartsOf r parts'
  gen_eq : map'.gen ≡ gen + count [MOD 2 ^ 64]
  size_le : size (parts'.map Prod.snd) + count ≤ size (parts.map Prod.snd)
  same : count = 0 → parts' = parts

/-- The deallocations, in turn. -/
theorem Linked.deallocAll {fuel : Nat} (hfuel : 2 ^ 64 ≤ fuel)
    {r : NdzRange α} (hbefore : ∀ c ∈ pre, c.2.last < r.start)
    (hbehind : ∀ c ∈ post, r.last < c.2.start) {requests : List DeallocRequest}
    (hwithin : ∀ request ∈ requests, request.Within r)
    {parts : RangeCells α} (h : Linked map (pre ++ parts ++ post)) (hparts : PartsOf r parts) :
    ∃ map' parts' count, Imagezip.deallocAll fuel requests map = some map' ∧
      Linked map' (pre ++ parts' ++ post) ∧ count ≤ requests.length ∧
      Whittled r map.gen parts count map' parts' := by
  induction requests generalizing map parts with
  | nil =>
    exact ⟨map, parts, 0, rfl, h, le_rfl, hparts, rfl, le_rfl, fun _ => rfl⟩
  | cons request requests ih =>
    obtain ⟨err, map₁, parts₁, hdealloc, h₁, hparts₁, hchange⟩ :=
      h.dealloc_parts hfuel hbefore hbehind hparts (hwithin request mem_cons_self)
    obtain ⟨map', parts', count, hall, hlinked, hcount, hwhittled⟩ :=
      ih (fun q hq => hwithin q (mem_cons_of_mem _ hq)) h₁ hparts₁
    have hall' : Imagezip.deallocAll fuel (request :: requests) map = some map' :=
      (deallocAll_cons request hdealloc requests).trans hall
    rw [length_cons]
    rcases hchange with ⟨hgen, rfl⟩ | ⟨hgen, hsize⟩
    · rw [hgen] at hwhittled
      exact ⟨map', parts', count, hall', hlinked, by omega, hwhittled⟩
    · -- one more change
      refine ⟨map', parts', count + 1, hall', hlinked, by omega, hwhittled.partsOf, ?_, ?_, ?_⟩
      · have hmod : addU64 map.gen 1 ≡ map.gen + 1 [MOD 2 ^ 64] := Nat.mod_modEq _ _
        have hnext := hwhittled.gen_eq
        rw [hgen] at hnext
        have hsum := hnext.trans (hmod.add_right count)
        rwa [show map.gen + 1 + count = map.gen + (count + 1) by omega] at hsum
      · have := hwhittled.size_le
        omega
      · intro hzero
        omega

/-! ## Section 4: The loop -/

/-- The function deallocates addresses of the range that it is given only. -/
def DeallocatesWithin (ifunc : IterateFunc α σ) : Prop :=
  ∀ arg map p r, r.start ≤ r.last → r.last < 2 ^ 64 → ∀ request ∈ (ifunc arg map p r).requests, request.Within r

/-- A call for a range of all addresses does not make as many deallocations as there are addresses. -/
def CountsBelow (ifunc : IterateFunc α σ) (cells : RangeCells α) : Prop :=
  ∀ c ∈ cells, c.2.start = 0 → c.2.last = 2 ^ 64 - 1 → ∀ arg map, (ifunc arg map c.1 c.2).requests.length < 2 ^ 64

/-- A range of which there are `count` changes has at least as many addresses, so that the
    count of changes tells whether there has been one. -/
theorem count_eq_zero {r : NdzRange α} {count gen gen' n : Nat} (hr : r.last < 2 ^ 64)
    (hgen : gen' ≡ gen + count [MOD 2 ^ 64]) (hsize : count ≤ r.last + 1 - r.start)
    (hn : count ≤ n) (hbelow : r.start = 0 → r.last = 2 ^ 64 - 1 → n < 2 ^ 64)
    (hsame : gen' = gen) : count = 0 := by
  have hlt : count < 2 ^ 64 := by
    by_contra hge
    have := hbelow (by omega) (by omega)
    omega
  have hmod : gen + count ≡ gen + 0 [MOD 2 ^ 64] := (hsame ▸ hgen).symm
  exact Nat.ModEq.eq_of_lt_of_lt (Nat.ModEq.add_left_cancel' gen hmod) hlt (by decide)

/-- How an iteration over some ranges ends. -/
structure IteratesOver (ifunc : IterateFunc α σ) (visited rest : RangeCells α)
    (w : Iterated α σ) : Prop where
  linked : ∃ cells, Linked w.map cells
  /-- The ranges are visited in turn, -/
  visited : ∃ seen unseen, rest = seen ++ unseen ∧ w.visited = visited ++ seen ∧ (w.rv = 0 → unseen = [])
  /-- and all of them if the function always returns zero. -/
  zero : (∀ arg map p r, (ifunc arg map p r).rv = 0) → w.rv = 0

theorem iterateLoop_spec {fuel : Nat} (hfuel : 2 ^ 64 ≤ fuel) {ifunc : IterateFunc α σ}
    (hwithin : DeallocatesWithin ifunc) {done rest : RangeCells α} (hcount : CountsBelow ifunc rest)
    (h : Linked map (done ++ rest)) (arg : σ) (visited : RangeCells α) {n : Nat} (hn : rest.length < n) :
    ∃ w, iterateLoop fuel ifunc n ⟨map, iterationAt map.gen rest⟩ arg visited = some w ∧
      IteratesOver ifunc visited rest w := by
  induction rest generalizing done map arg visited n with
  | nil =>
    obtain ⟨m, rfl⟩ : ∃ m, n = m + 1 := ⟨n - 1, by omega⟩
    exact ⟨_, rfl, ⟨_, h⟩, ⟨[], [], rfl, by simp, fun _ => rfl⟩, fun _ => rfl⟩
  | cons c rest ih =>
    obtain ⟨m, rfl⟩ : ∃ m, n = m + 1 := ⟨n - 1, by omega⟩
    rw [length_cons] at hn
    obtain ⟨-, hne, hbefore, hbehind⟩ := sortedCells_middle.mp h.sorted
    have hparts : PartsOf c.2 [c] := by
      intro d hd
      rw [mem_singleton.mp hd]
      exact ⟨le_rfl, le_rfl⟩
    have h' : Linked map (done ++ [c] ++ rest) := by simpa using h
    have hrequests := hwithin arg map c.1 c.2 hne (h.fits c (by simp))
    obtain ⟨map', parts, count, hall, hlinked, hle, hwhittled⟩ :=
      h'.deallocAll hfuel hbefore hbehind hrequests hparts
    have hheap : map.list.heap c.1 = some ⟨first rest, c.2⟩ := h.holds.heap_eq (p := c.1)
    unfold iterateLoop
    simp only [iterationAt, List.head?_cons, map_some, toList_some, hheap, bind_eq_bind, bind_some, hall]
    by_cases hrv : (ifunc arg map c.1 c.2).rv ≠ 0
    · rw [if_pos hrv]
      refine ⟨_, rfl, ⟨_, hlinked⟩, ⟨[c], rest, rfl, rfl, fun hzero => absurd hzero hrv⟩, ?_⟩
      intro hzero
      exact hzero arg map c.1 c.2
    · rw [if_neg hrv]
      have hsize := hwhittled.size_le
      rw [map_cons, map_nil, size_cons, size_nil] at hsize
      -- without a change the range is the last node in front of the others
      have hsame : map'.gen = map.gen → linkBehind (done ++ parts) = .next c.1 := by
        intro hgen
        have hzero := count_eq_zero (h.fits c (by simp)) hwhittled.gen_eq (by omega) hle
          (fun hs hl => hcount c mem_cons_self hs hl arg map) hgen
        rw [hwhittled.same hzero, linkBehind_snoc]
      have hends : ∀ d ∈ done ++ parts, d.2.last ≤ c.2.last := by
        intro d hd
        rcases mem_append.mp hd with hd | hd
        · have := hbefore d hd
          omega
        · exact (hwhittled.partsOf d hd).2
      obtain ⟨map₁, hproceed, hlinked₁⟩ := proceed_eq hlinked (hlinked.length_le.trans hfuel)
        ⟨c.1, c.2.last, map.gen⟩ hsame hends hbehind
      obtain ⟨w, hloop, hover⟩ := ih (fun d hd => hcount d (mem_cons_of_mem _ hd)) hlinked₁
        (ifunc arg map c.1 c.2).arg (visited ++ [(c.1, c.2)]) (n := m) (by omega)
      rw [hproceed]
      refine ⟨w, hloop, hover.linked, ?_, hover.zero⟩
      obtain ⟨seen, unseen, hsplit, hvisited, hzero⟩ := hover.visited
      refine ⟨c :: seen, unseen, by rw [hsplit]; rfl, ?_, hzero⟩
      rw [hvisited, append_assoc]
      rfl

/-- An iteration whose function deallocates any parts of the range that it is called with visits
    the ranges that are there at the start once each and in ascending order, until the function
    returns something other than zero. No assertion fails, and it terminates. -/
theorem linkedIterate_visits {fuel turns : Nat} {map : LinkedRangemap α} {cells : RangeCells α}
    (h : Linked map cells) (hfuel : 2 ^ 64 ≤ fuel) (hturns : cells.length < turns)
    {ifunc : IterateFunc α σ} (hwithin : DeallocatesWithin ifunc)
    (hcount : CountsBelow ifunc cells) (arg : σ) :
    ∃ w, linkedIterate fuel turns ifunc map arg = some w ∧
      (∃ seen unseen, cells = seen ++ unseen ∧ w.visited = seen ∧ (w.rv = 0 → unseen = [])) ∧
      ((∀ arg map p r, (ifunc arg map p r).rv = 0) → w.rv = 0 ∧ w.visited = cells) ∧
      SortedCells w.visited := by
  have hnil : Linked map ([] ++ cells) := h
  have hstart : Linked { map with hint := .head } ([] ++ cells) := hnil.hint_at
  obtain ⟨w, hloop, hover⟩ := iterateLoop_spec hfuel hwithin hcount hstart arg [] hturns
  obtain ⟨seen, unseen, hsplit, hvisited, hzero⟩ := hover.visited
  rw [nil_append] at hvisited
  have hadvance := advance_eq hnil
  rw [linkBehind_nil] at hadvance
  refine ⟨w, ?_, ⟨seen, unseen, hsplit, hvisited, hzero⟩, ?_, ?_⟩
  · unfold linkedIterate
    rw [hadvance]
    exact hloop
  · intro hall
    have hrv := hover.zero hall
    refine ⟨hrv, ?_⟩
    rw [hvisited, hsplit, hzero hrv, append_nil]
  · have hsorted := h.sorted
    unfold SortedCells at hsorted ⊢
    rw [hsplit, map_append] at hsorted
    rw [hvisited]
    exact (sorted_append.mp hsorted).1

/-- What an operation of a map returns. -/
def Errno.value : Option Errno → Int
  | none => 0
  | some .ENOMEM => 12
  | some .EBUSY => 16
  | some .EINVAL => 22

/-- `whackme`: deallocate the whole range. -/
def whackme (fuel : Nat) : IterateFunc α Unit := fun _ map _ range =>
  let size := addU64 (subU64 range.last range.start) 1
  { requests := [⟨range.start, size, none⟩]
    rv := (map.dealloc fuel range.start size none).elim 0 fun res => Errno.value res.1
    arg := () }

theorem whackme_within (fuel : Nat) : DeallocatesWithin (whackme fuel : IterateFunc α Unit) := by
  intro arg map p r hne hlast request hrequest
  rw [mem_singleton.mp hrequest]
  refine ⟨le_rfl, ?_⟩
  unfold addU64 subU64
  dsimp only
  omega

/-- A map with two ranges. -/
def apart : RangeCells Unit := [(1, ⟨10, 14, none⟩), (2, ⟨20, 24, none⟩)]

def apartMap : LinkedRangemap Unit :=
  { list := ⟨first apart, nodeAt apart⟩, hint := .head, loaddr := 0, hiaddr := 100, gen := 3,
    entries := 2, sectors := 10 }

theorem apartMap_linked : Linked apartMap apart where
  holds := ⟨rfl, fun _ => rfl, by decide⟩
  sorted := sorted_cons.mpr ⟨by decide, by decide, sorted_cons.mpr ⟨by decide, by simp, sorted_nil⟩⟩
  fits := by decide
  hint := ⟨[], apart, rfl, rfl⟩

theorem linkedIterate_visits_two : ∃ w, linkedIterate (2 ^ 64) 3 (whackme (2 ^ 64)) apartMap () = some w ∧
      ∃ seen unseen, apart = seen ++ unseen ∧ w.visited = seen ∧ (w.rv = 0 → unseen = []) := by
  have hcount : CountsBelow (whackme (2 ^ 64) : IterateFunc Unit Unit) apart := by
    intro c _ _ _ arg map
    exact Nat.one_lt_two_pow (by decide)
  obtain ⟨w, hw, hvisited, -⟩ := linkedIterate_visits apartMap_linked le_rfl
    (show apart.length < 3 by decide) (whackme_within _) hcount ()
  exact ⟨w, hw, hvisited⟩

/-! ## Section 5: The count comes around -/

/-- Deallocate the addresses from `addr` on, one by one. -/
def oneByOne : Nat → Nat → List DeallocRequest
  | _, 0 => []
  | addr, n + 1 => ⟨addr, 1, none⟩ :: oneByOne (addr + 1) n

/-- The function deallocates the addresses of its range one by one. -/
def whackSlowly : IterateFunc Unit Unit := fun _ _ _ range =>
  ⟨oneByOne range.start (range.last + 1 - range.start), 0, ()⟩

theorem mem_oneByOne {request : DeallocRequest} {addr n : Nat} (h : request ∈ oneByOne addr n) :
    addr ≤ request.addr ∧ request.addr < addr + n ∧ request.size = 1 := by
  induction n generalizing addr with
  | zero => cases h
  | succ n ih =>
    rcases mem_cons.mp h with rfl | h
    · exact ⟨le_rfl, by dsimp only; omega, rfl⟩
    · have := ih h
      omega

theorem whackSlowly_within : DeallocatesWithin whackSlowly := by
  intro arg map p r hne hlast request hrequest
  obtain ⟨hle, hlt, hsize⟩ := mem_oneByOne hrequest
  refine ⟨hle, ?_⟩
  rw [hsize]
  unfold addU64 subU64
  omega

/-- A map of one range, which goes up to the last address of the map. -/
def spanMap (start last gen sectors : Nat) : LinkedRangemap Unit :=
  { list := ⟨some 1, Function.update (fun _ => none) 1 (some ⟨none, ⟨start, last, none⟩⟩)⟩
    hint := .head, loaddr := 0, hiaddr := last, gen := gen, entries := 1, sectors := sectors }

/-- The same when nothing is left. -/
def noneLeft (last gen sectors : Nat) : LinkedRangemap Unit :=
  { LinkedRangemap.init 0 last with gen := gen, sectors := sectors }

theorem spanMap_lookup (fuel start last gen sectors : Nat) (h : start ≤ last) :
    (spanMap start last gen sectors).lookup (fuel + 1) start =
      some (some 1, none, spanMap start last gen sectors) := by
  simp [spanMap, LinkedRangemap.lookup, LinkedRangemap.searchFrom, LinkedRangemap.hintAsserted,
    Memory.deref, Link.owner, h]

theorem spanMap_dealloc (fuel start last gen sectors : Nat) (hlast : last < 2 ^ 64) (h : start < last) :
    (spanMap start last gen sectors).dealloc (fuel + 1) start 1 none =
      some (none, spanMap (start + 1) last (addU64 gen 1) (subU64 sectors 1)) := by
  have headdr : subU64 (addU64 start 1) 1 = start := by unfold addU64 subU64; omega
  have hnext : addU64 start 1 = start + 1 := Nat.mod_eq_of_lt (by omega)
  unfold LinkedRangemap.dealloc
  simp only [headdr, spanMap_lookup fuel start last gen sectors h.le]
  simp [spanMap, LinkedRangemap.trim, Memory.modify, Link.behind, h.not_gt, h.ne', hnext]

theorem spanMap_dealloc_last (fuel last gen sectors : Nat) (hlast : last < 2 ^ 64) :
    (spanMap last last gen sectors).dealloc (fuel + 1) last 1 none =
      some (none, noneLeft last (addU64 gen 1) (subU64 sectors 1)) := by
  have headdr : subU64 (addU64 last 1) 1 = last := by unfold addU64 subU64; omega
  unfold LinkedRangemap.dealloc
  simp only [headdr, spanMap_lookup fuel last last gen sectors le_rfl]
  simp [spanMap, noneLeft, LinkedRangemap.init, LinkedRangemap.trim, Memory.store, Memory.free, Link.behind]
  rfl

theorem addU64_add (gen n : Nat) : (addU64 gen 1 + (n + 1)) % 2 ^ 64 = (gen + (n + 1 + 1)) % 2 ^ 64 := by
  unfold addU64
  omega

/-- All addresses are deallocated one by one, with one change each. -/
theorem deallocAll_oneByOne (fuel last n : Nat) (hlast : last < 2 ^ 64) (hn : n ≤ last)
    (gen sectors : Nat) : ∃ sectors',
    deallocAll (fuel + 1) (oneByOne (last - n) (n + 1)) (spanMap (last - n) last gen sectors) =
      some (noneLeft last ((gen + (n + 1)) % 2 ^ 64) sectors') := by
  induction n generalizing gen sectors with
  | zero =>
    refine ⟨subU64 sectors 1, ?_⟩
    have hone := spanMap_dealloc_last fuel last gen sectors hlast
    exact deallocAll_cons ⟨last, 1, none⟩ hone []
  | succ n ih =>
    obtain ⟨sectors', h⟩ := ih (by omega) (addU64 gen 1) (subU64 sectors 1)
    refine ⟨sectors', ?_⟩
    have hnext : last - (n + 1) + 1 = last - n := by omega
    have hone := spanMap_dealloc fuel (last - (n + 1)) last gen sectors hlast (by omega)
    rw [hnext] at hone
    rw [addU64_add] at h
    have hsplit : oneByOne (last - (n + 1)) (n + 1 + 1) =
        ⟨last - (n + 1), 1, none⟩ :: oneByOne (last - n) (n + 1) := by
      show _ :: oneByOne (last - (n + 1) + 1) (n + 1) = _
      rw [hnext]
    rw [hsplit, deallocAll_cons ⟨last - (n + 1), 1, none⟩ hone]
    exact h

/-- After as many changes as there are addresses the count is the same again. The iteration takes
    the range for unchanged, makes its `next` field the hint, and reads freed memory. -/
theorem whackSlowly_none (fuel turns last gen sectors : Nat) (hlast : last + 1 = 2 ^ 64) (hgen : gen < 2 ^ 64) :
    (∃ sectors', deallocAll (fuel + 1) (oneByOne 0 (last + 1)) (spanMap 0 last gen sectors) =
      some (noneLeft last gen sectors')) ∧
    linkedIterate (fuel + 1) (turns + 1) whackSlowly (spanMap 0 last gen sectors) () = none := by
  obtain ⟨sectors', hall⟩ := deallocAll_oneByOne fuel last last (by omega) le_rfl gen sectors
  have hmod : (gen + (last + 1)) % 2 ^ 64 = gen := by
    rw [hlast, Nat.add_mod_right, Nat.mod_eq_of_lt hgen]
  rw [Nat.sub_self, hmod] at hall
  refine ⟨⟨sectors', hall⟩, ?_⟩
  have hstart : RangeSystem.advance (spanMap 0 last gen sectors) .head [] =
      some ⟨spanMap 0 last gen sectors, [⟨1, last, gen⟩]⟩ := by
    simp [RangeSystem.advance, spanMap, Memory.deref]
  have hheap : (spanMap 0 last gen sectors).list.heap 1 = some ⟨none, ⟨0, last, none⟩⟩ := by
    simp [spanMap]
  have hproceed : RangeSystem.proceed (fuel + 1) (noneLeft last gen sectors') ⟨1, last, gen⟩ [] =
      none := by
    simp [RangeSystem.proceed, RangeSystem.advance, noneLeft, LinkedRangemap.init, Memory.deref]
  unfold linkedIterate
  rw [hstart]
  simp only [bind_eq_bind, bind_some, iterateLoop, hheap, whackSlowly, Nat.sub_zero,
    hall, ne_eq, not_true_eq_false, if_false, hproceed, bind_none]

theorem spanMap_linked (last gen sectors : Nat) (hlast : last < 2 ^ 64) :
    Linked (spanMap 0 last gen sectors) [(1, ⟨0, last, none⟩)] where
  holds := by
    refine ⟨rfl, fun q => ?_, nodup_singleton 1⟩
    unfold spanMap nodeAt
    by_cases hq : q = 1
    · subst hq
      simp
    · simp [hq, nodeAt]
  sorted := sorted_cons.mpr ⟨Nat.zero_le _, by simp, sorted_nil⟩
  fits := by
    intro c hc
    rw [mem_singleton.mp hc]
    exact hlast
  hint := ⟨[], _, rfl, rfl⟩

/-- It is made by two allocations. -/
theorem spanMap_alloc (last n : Nat) (hlast : last < 2 ^ 64) (hpos : 0 < n) (hn : n ≤ last) :
    ∃ map sectors, (LinkedRangemap.init 0 last).alloc 2 0 n none (some 1) = some (none, map) ∧
      map.alloc 2 n (last + 1 - n) none none = some (none, spanMap 0 last 3 sectors) := by
  have hfirst : subU64 (addU64 0 n) 1 = n - 1 := by unfold addU64 subU64; omega
  have hsecond : subU64 (addU64 n (last + 1 - n)) 1 = last := by unfold addU64 subU64; omega
  have habuts : addU64 (n - 1) 1 = n := by unfold addU64; omega
  have hone : addU64 1 1 = 2 := rfl
  have htwo : addU64 2 1 = 3 := rfl
  refine ⟨{ spanMap 0 (n - 1) 2 (addU64 0 n) with hiaddr := last }, addU64 (addU64 0 n) (last + 1 - n), ?_, ?_⟩
  · have hin : ¬ last < n - 1 := by omega
    unfold LinkedRangemap.alloc
    simp [hfirst, hin, hone, LinkedRangemap.init, LinkedRangemap.lookup, LinkedRangemap.rangeAt,
      LinkedRangemap.rangeAlloc, spanMap, Memory.deref, Memory.write, Memory.store, Link.behind]
    rfl
  · have hin : ¬ last < n := by omega
    have hbehind : ¬ n ≤ n - 1 := by omega
    unfold LinkedRangemap.alloc
    simp [hsecond, habuts, hin, hbehind, htwo, LinkedRangemap.lookup, LinkedRangemap.searchFrom,
      LinkedRangemap.rangeAt, LinkedRangemap.mergePrev,
      LinkedRangemap.hintAsserted, spanMap, Memory.deref, Memory.modify, Link.behind, Link.owner]

theorem whackSlowly_last (last : Nat) (hlast : last + 1 = 2 ^ 64) :
    ∃ map map', (LinkedRangemap.init 0 last).alloc 2 0 1 none (some 1) = some (none, map) ∧
      map.alloc 2 1 last none none = some (none, map') ∧
      Linked map' [(1, ⟨0, last, none⟩)] ∧
      ∀ fuel turns, (∃ map'', deallocAll (fuel + 1) (whackSlowly () map' 1 ⟨0, last, none⟩).requests map' =
          some map'') ∧
        linkedIterate (fuel + 1) (turns + 1) whackSlowly map' () = none := by
  obtain ⟨map, sectors, hmap, hmap'⟩ := spanMap_alloc last 1 (by omega) (by omega) (by omega)
  rw [Nat.add_sub_cancel] at hmap'
  refine ⟨map, spanMap 0 last 3 sectors, hmap, hmap', spanMap_linked last 3 sectors (by omega),
    fun fuel turns => ?_⟩
  obtain ⟨⟨sectors', hall⟩, hnone⟩ := whackSlowly_none fuel turns last 3 sectors hlast (by omega)
  exact ⟨⟨_, hall⟩, hnone⟩

/-- A function that deallocates all addresses one by one makes the iteration read a range that is gone. -/
theorem whackSlowly_crashes : DeallocatesWithin whackSlowly ∧
    ∃ map map', (LinkedRangemap.init 0 (2 ^ 64 - 1)).alloc 2 0 1 none (some 1) = some (none, map) ∧
      map.alloc 2 1 (2 ^ 64 - 1) none none = some (none, map') ∧
      Linked map' [(1, ⟨0, 2 ^ 64 - 1, none⟩)] ∧
      ∀ fuel turns, (∃ map'', deallocAll (fuel + 1)
          (whackSlowly () map' 1 ⟨0, 2 ^ 64 - 1, none⟩).requests map' = some map'') ∧
        linkedIterate (fuel + 1) (turns + 1) whackSlowly map' () = none :=
  ⟨whackSlowly_within, whackSlowly_last (2 ^ 64 - 1) (by decide)⟩

end Emulab.Imagezip
