import Emulab.Imagezip.RangeList

/-! # The hint of a range map, over all histories

  Calls come in any order, also from within the function of an iteration.
  The hint stays the head of the list or a node of it, so that a search
  finds what a scan from the head finds.

  An iteration compares the counts of changes of before and after a call of
  its function, which are 64 bits wide. `Watched` counts the changes beside
  the system without a bound, so that a run can say that a count has not
  come around to the same value.
-/

namespace Emulab.Imagezip

open MachineInt IntervalMap LinkedList Machine List Option

variable {α : Type}

/-! ## Section 1: A step -/

namespace RangeSystem

def init (lo hi : Nat) : RangeSystem α := { map := .init lo hi, iterations := [] }

/-- An iteration goes on with a node of the list, or ends. -/
def Begun (map : LinkedRangemap α) (cells : RangeCells α) (outer : List Iteration) (s' : RangeSystem α) : Prop :=
  s'.map.gen = map.gen ∧ Linked s'.map cells ∧ (s'.iterations = outer ∨
      ∃ it, s'.iterations = it :: outer ∧ it.gen = map.gen ∧ it.range ∈ ptrs cells)

theorem advance_begun {map : LinkedRangemap α} (pre : RangeCells α) {post : RangeCells α}
    (h : Linked map (pre ++ post)) (outer : List Iteration) :
    ∃ s', advance map (linkBehind pre) outer = some s' ∧ Begun map (pre ++ post) outer s' := by
  have hlinked : Linked { map with hint := linkBehind pre } (pre ++ post) :=
    ⟨h.holds, h.sorted, h.fits, pre, post, rfl, rfl⟩
  unfold advance
  simp only [h.holds.deref, bind_eq_bind, bind_some]
  cases post with
  | nil => exact ⟨_, rfl, rfl, hlinked, Or.inl rfl⟩
  | cons c post =>
    simp only [first_cons, h.holds.heap_eq (p := c.1), bind_some]
    exact ⟨_, rfl, rfl, hlinked, Or.inr ⟨_, rfl, rfl, by simp⟩⟩

theorem advance_next_begun {map : LinkedRangemap α} {cells : RangeCells α} {p : Nat}
    (h : Linked map cells) (hp : p ∈ ptrs cells) (outer : List Iteration) :
    ∃ s', advance map (.next p) outer = some s' ∧ Begun map cells outer s' := by
  obtain ⟨c, hc, rfl⟩ := mem_map.mp hp
  obtain ⟨pre, post, rfl⟩ := append_of_mem hc
  have hsnoc : pre ++ c :: post = (pre ++ [c]) ++ post := by simp
  rw [hsnoc] at h ⊢
  have hbegun := advance_begun (pre ++ [c]) h outer
  rwa [linkBehind_snoc] at hbegun

/-- The function has returned zero. If the counts are equal, its range must still be there. -/
theorem proceed_begun {map : LinkedRangemap α} {cells : RangeCells α} (h : Linked map cells)
    {fuel : Nat} (hfuel : cells.length ≤ fuel) {it : Iteration}
    (hit : map.gen = it.gen → it.range ∈ ptrs cells) (outer : List Iteration) :
    ∃ s', proceed fuel map it outer = some s' ∧ Begun map cells outer s' := by
  unfold proceed
  by_cases hgen : map.gen ≠ it.gen
  · rw [if_pos hgen]
    obtain ⟨range, prev, hint, hlookup, hlocated, hlinked⟩ := h.lookup hfuel it.addr
    -- the hint does not matter to what the iteration goes on with
    have hbegun : ∀ {s'}, Begun { map with hint := hint } cells outer s' →
        Begun map cells outer s' := fun hs' => hs'
    rw [hlookup]
    simp only [bind_eq_bind, bind_some]
    cases hlocated with
    | inside pre p r post split mem hrange hprev hhint =>
      rw [hrange]
      obtain ⟨s', hs', hb⟩ := advance_next_begun (p := p) hlinked (by rw [split]; simp) outer
      exact ⟨s', hs', hbegun hb⟩
    | between pre post split before behind hrange hprev hhint =>
      rw [hrange, hprev]
      obtain rfl | ⟨pre', c, rfl⟩ := pre.eq_nil_or_concat
      · obtain ⟨s', hs', hb⟩ := advance_begun [] hlinked outer
        exact ⟨s', hs', hbegun hb⟩
      · -- the assertion: the hint points to the range in front
        rw [concat_eq_append] at split hhint ⊢
        rw [dropLast_concat] at hhint
        have hderef : map.list.deref hint = some (some c.1) := by
          have hlist := h.holds
          rw [split, append_assoc] at hlist
          rw [hhint, hlist.deref]
          rfl
        rw [last_snoc]
        simp only [hderef, bind_some, if_true]
        obtain ⟨s', hs', hb⟩ := advance_next_begun (p := c.1) hlinked (by rw [split]; simp) outer
        exact ⟨s', hs', hbegun hb⟩
  · rw [if_neg hgen]
    exact advance_next_begun h (hit (not_not.mp hgen)) outer

end RangeSystem

/-! ## Section 2: Counting changes -/

/-- A system, and for each iteration the number of changes of the map since its function was called. -/
structure Watched (α : Type) where
  system : RangeSystem α
  changes : List Nat

namespace Watched

def init (lo hi : Nat) : Watched α := { system := .init lo hi, changes := [] }

/-- The counts of the iterations that a call leaves as they are. -/
def kept (changes : List Nat) : RangeCall α → List Nat
  | .proceed | .terminate => changes.tail
  | _ => changes

/-- The counts after a call. A function that has just been called has made no changes. -/
def watch (w : Watched α) (kept : List Nat) (s : RangeSystem α) : Watched α where
  system := s
  changes :=
    if kept.length < s.iterations.length then 0 :: kept
    else if s.map.gen = w.system.map.gen then kept
    else kept.map (· + 1)

def step (fuel : Nat) (w : Watched α) (call : RangeCall α) : Option (Watched α) :=
  (w.system.step fuel call).map (w.watch (kept w.changes call))

/-- When the function of an iteration returns zero, the number of changes that it has made is zero
    or no multiple of `2 ^ 64`. -/
def CountTells (w : Watched α) (call : RangeCall α) : Prop :=
  match call, w.changes with
  | .proceed, c :: _ => c % 2 ^ 64 = 0 → c = 0
  | _, _ => True

instance decidableCountTells : (w : Watched α) → (call : RangeCall α) →
    Decidable (CountTells w call)
  | ⟨_, c :: _⟩, .proceed => inferInstanceAs (Decidable (c % 2 ^ 64 = 0 → c = 0))
  | ⟨_, []⟩, .proceed => isTrue True.intro
  | _, .lookup _ | _, .overlap _ _ | _, .alloc _ _ _ _ | _, .dealloc _ _ _ | _, .iterate
  | _, .terminate => isTrue True.intro

theorem run_system {fuel : Nat} {w w' : Watched α} {calls : List (RangeCall α)}
    (h : run (step fuel) w calls = some w') : run (RangeSystem.step fuel) w.system calls = some w'.system := by
  induction calls generalizing w with
  | nil =>
    obtain rfl : w = w' := some.inj h
    rfl
  | cons call calls ih =>
    rw [run_cons, bind_eq_some_iff] at h
    obtain ⟨w₁, hstep, hrest⟩ := h
    unfold step at hstep
    obtain ⟨s, hs, rfl⟩ := map_eq_some_iff.mp hstep
    rw [run_cons, hs, bind_some]
    exact ih hrest

/-- The count of an iteration is right up to `2 ^ 64`, and without a change the range is still there. -/
structure Tracks (gen : Nat) (cells : RangeCells α) (it : Iteration) (c : Nat) : Prop where
  gen_eq : gen ≡ it.gen + c [MOD 2 ^ 64]
  live : c = 0 → it.range ∈ ptrs cells

variable {cells : RangeCells α}

theorem Tracks.next {gen : Nat} {it : Iteration} {c : Nat}
    (h : Tracks gen cells it c) (cells' : RangeCells α) : Tracks (addU64 gen 1) cells' it (c + 1) := by
  refine ⟨?_, fun hzero => absurd hzero (Nat.succ_ne_zero c)⟩
  exact (Nat.mod_modEq (gen + 1) (2 ^ 64)).trans (h.gen_eq.add_right 1)

theorem Tracks.live_of_gen_eq {gen : Nat} {it : Iteration} {c : Nat}
    (h : Tracks gen cells it c) (hgen : gen = it.gen) (hc : c % 2 ^ 64 = 0 → c = 0) : it.range ∈ ptrs cells := by
  apply h.live (hc _)
  have hmod : it.gen + c ≡ it.gen + 0 [MOD 2 ^ 64] := (hgen ▸ h.gen_eq).symm
  exact Nat.ModEq.add_left_cancel' it.gen hmod

/-- The invariant: the list is in order, the hint is in it, and the counts are right. -/
structure Inv (n : Nat) (w : Watched α) (cells : RangeCells α) : Prop where
  linked : Linked w.system.map cells
  length_le : cells.length ≤ n
  tracks : List.Forall₂ (Tracks w.system.map.gen cells) w.system.iterations w.changes

/-- What is left after a call of an operation. -/
theorem Inv.follows {n : Nat} {w : Watched α} (h : Inv n w cells)
    {map' : LinkedRangemap α} (hfollows : Follows w.system.map cells map') :
    ∃ cells', Inv (n + 1) (w.watch w.changes { w.system with map := map' }) cells' := by
  obtain ⟨cells', hlinked, hlen, hchange⟩ := hfollows
  refine ⟨cells', hlinked, by have := h.length_le; omega, ?_⟩
  unfold watch
  dsimp only
  rw [if_neg (by rw [h.tracks.length_eq]; exact lt_irrefl _)]
  rcases hchange with ⟨hgen, rfl⟩ | hgen
  · rw [if_pos hgen, hgen]
    exact h.tracks
  · have hne : addU64 w.system.map.gen 1 ≠ w.system.map.gen := by
      unfold addU64
      omega
    rw [hgen, if_neg hne, forall₂_map_right_iff]
    exact h.tracks.imp fun it c htracks => htracks.next cells'

theorem Inv.begun {n : Nat} {w : Watched α} (h : Inv n w cells)
    {s' : RangeSystem α} {kept : List Nat} (outer : List Iteration)
    (hbegun : RangeSystem.Begun w.system.map cells outer s')
    (hkept : List.Forall₂ (Tracks w.system.map.gen cells) outer kept) : Inv (n + 1) (w.watch kept s') cells := by
  obtain ⟨hgen, hlinked, houter | ⟨it, hit, hcount, hmem⟩⟩ := hbegun
  · refine ⟨hlinked, Nat.le_succ_of_le h.length_le, ?_⟩
    unfold watch
    dsimp only
    rw [houter, if_neg (by rw [hkept.length_eq]; exact lt_irrefl _), if_pos hgen, hgen]
    exact hkept
  · refine ⟨hlinked, Nat.le_succ_of_le h.length_le, ?_⟩
    unfold watch
    dsimp only
    rw [hit, hgen, if_pos (by rw [length_cons, hkept.length_eq]; exact Nat.lt_succ_self _)]
    refine List.Forall₂.cons ⟨?_, fun _ => hmem⟩ hkept
    rw [hcount]
    rfl

/-- **Step lemma.** No call fails, and the invariant is kept. -/
theorem Inv.step {n : Nat} {w : Watched α} (h : Inv n w cells) {fuel : Nat}
    (hfuel : n ≤ fuel) {call : RangeCall α} (hcount : CountTells w call) :
    ∃ w' cells', w.step fuel call = some w' ∧ Inv (n + 1) w' cells' := by
  have hlen : cells.length ≤ fuel := h.length_le.trans hfuel
  unfold Watched.step
  cases call with
  | lookup addr =>
    obtain ⟨range, prev, hint, hlookup, -, hlinked⟩ := h.linked.lookup hlen addr
    obtain ⟨cells', hinv⟩ := h.follows (follows_hint hlinked)
    rw [RangeSystem.step, hlookup]
    exact ⟨_, cells', rfl, hinv⟩
  | overlap addr size =>
    obtain ⟨hint, hoverlap, hlinked⟩ := h.linked.overlap hlen addr size
    obtain ⟨cells', hinv⟩ := h.follows (follows_hint hlinked)
    rw [RangeSystem.step, hoverlap]
    exact ⟨_, cells', rfl, hinv⟩
  | alloc addr size data fresh =>
    obtain ⟨err, map', halloc, hfollows⟩ := h.linked.alloc hlen addr size data fresh
    obtain ⟨cells', hinv⟩ := h.follows hfollows
    rw [RangeSystem.step, halloc]
    exact ⟨_, cells', rfl, hinv⟩
  | dealloc addr size fresh =>
    obtain ⟨err, map', hdealloc, hfollows⟩ := h.linked.dealloc hlen addr size fresh
    obtain ⟨cells', hinv⟩ := h.follows hfollows
    rw [RangeSystem.step, hdealloc]
    exact ⟨_, cells', rfl, hinv⟩
  | iterate =>
    obtain ⟨s', hs', hbegun⟩ := RangeSystem.advance_begun [] h.linked w.system.iterations
    rw [linkBehind_nil] at hs'
    rw [RangeSystem.step, hs']
    exact ⟨_, cells, rfl, h.begun _ hbegun h.tracks⟩
  | proceed =>
    have htracks := h.tracks
    unfold CountTells at hcount
    cases hiter : w.system.iterations with
    | nil =>
      rw [hiter] at htracks
      have hnil : w.changes = [] := forall₂_nil_left_iff.mp htracks
      simp only [RangeSystem.step, hiter, map_some]
      refine ⟨_, cells, rfl, h.begun [] ⟨rfl, h.linked, Or.inl hiter⟩ ?_⟩
      simp [kept, hnil]
    | cons it outer =>
      rw [hiter] at htracks
      obtain ⟨c, kept', hit, houter, hchanges⟩ := forall₂_cons_left_iff.mp htracks
      rw [hchanges] at hcount
      obtain ⟨s', hs', hbegun⟩ := RangeSystem.proceed_begun h.linked hlen
        (fun hgen => hit.live_of_gen_eq hgen hcount) outer
      simp only [RangeSystem.step, hiter, hs', map_some]
      refine ⟨_, cells, rfl, h.begun outer hbegun ?_⟩
      simp only [kept, hchanges, tail_cons]
      exact houter
  | terminate =>
    simp only [RangeSystem.step, map_some]
    refine ⟨_, cells, rfl, h.begun w.system.iterations.tail ⟨rfl, h.linked, Or.inl rfl⟩ ?_⟩
    have htail : ∀ {its cs}, List.Forall₂ (Tracks w.system.map.gen cells) its cs →
        List.Forall₂ (Tracks w.system.map.gen cells) its.tail cs.tail := by
      intro its cs htracks
      cases htracks with
      | nil => exact List.Forall₂.nil
      | cons hit houter => exact houter
    exact htail h.tracks

/-- **Run lemma.** No call of a run fails. -/
theorem Inv.run {fuel n : Nat} {w : Watched α} {calls : List (RangeCall α)}
    (h : Inv n w cells) (hfuel : n + calls.length ≤ fuel) (hcount : Meets (Watched.step fuel) CountTells w calls) :
    ∃ w' cells', Machine.run (Watched.step fuel) w calls = some w' ∧ Inv (n + calls.length) w' cells' := by
  induction calls generalizing w n cells with
  | nil => exact ⟨w, cells, rfl, h⟩
  | cons call calls ih =>
    rw [length_cons] at hfuel ⊢
    obtain ⟨w₁, cells₁, hstep, hinv⟩ := h.step (show n ≤ fuel by omega) hcount.1
    obtain ⟨w', cells', hrun, hinv'⟩ := ih hinv (by omega) (hcount.2 w₁ hstep)
    refine ⟨w', cells', ?_, ?_⟩
    · rw [run_cons, hstep]
      exact hrun
    · rwa [Nat.add_right_comm] at hinv'

theorem init_inv (lo hi : Nat) : Inv 0 (init lo hi : Watched α) [] where
  linked := ⟨⟨rfl, fun _ => rfl, nodup_nil⟩, sorted_nil, (fun _ hc => nomatch hc), ⟨[], [], rfl, rfl⟩⟩
  length_le := le_rfl
  tracks := List.Forall₂.nil

end Watched

/-! ## Section 3: Every history -/

theorem Linked.hint_mem {map : LinkedRangemap α} {cells : RangeCells α} (h : Linked map cells) :
    map.hint = .head ∨ ∃ p ∈ ptrs cells, map.hint = .next p := by
  obtain ⟨pre, post, hsplit, hhint⟩ := h.hint
  cases hlink : linkBehind pre with
  | head => exact Or.inl (hhint.trans hlink)
  | next p =>
    right
    refine ⟨p, ?_, hhint.trans hlink⟩
    rw [hsplit, ptrs_append]
    exact mem_append_left _ (mem_of_linkBehind hlink)

/-- The searches of a map find what a scan of its nodes from the head finds. -/
structure HintFree (fuel : Nat) (map : LinkedRangemap α) (cells : RangeCells α) : Prop where
  /-- The nodes in memory are those of the list. -/
  holds : Holds map.list cells
  hint : map.hint = .head ∨ ∃ p ∈ ptrs cells, map.hint = .next p
  lookup : ∀ addr, ∃ hint, map.lookup fuel addr =
    some ((scan addr none cells).1, (scan addr none cells).2, { map with hint := hint })
  overlap : ∀ addr size, ∃ hint, map.overlap fuel addr size =
    some (scanOverlap addr (subU64 (addU64 addr size) 1) cells, { map with hint := hint })

/-- In every run of calls, from an empty map on, no assertion fails, all memory that is used is
    allocated, and the searches do not depend on the hint. The run may be of any length, as long as
    the count of changes does not come around within a call of an iteration's function. -/
theorem rangemap_hintFree {fuel lo hi : Nat} {calls : List (RangeCall α)} (hfuel : calls.length ≤ fuel)
    (hcount : Meets (Watched.step fuel) Watched.CountTells (Watched.init lo hi) calls) :
    ∃ s cells, run (RangeSystem.step fuel) (RangeSystem.init lo hi) calls = some s ∧
      HintFree fuel s.map cells := by
  obtain ⟨w, cells, hrun, hinv⟩ := (Watched.init_inv lo hi).run (by rwa [Nat.zero_add]) hcount
  have hlinked := hinv.linked
  have hlen : cells.length ≤ fuel := by
    have := hinv.length_le
    omega
  refine ⟨w.system, cells, Watched.run_system hrun, hlinked.holds, hlinked.hint_mem, ?_, ?_⟩
  · intro addr
    obtain ⟨range, prev, hint, hlookup, hlocated, -⟩ := hlinked.lookup hlen addr
    rw [← hlocated.eq_scan hlinked.sorted]
    exact ⟨hint, hlookup⟩
  · intro addr size
    obtain ⟨hint, hoverlap, -⟩ := hlinked.overlap hlen addr size
    exact ⟨hint, hoverlap⟩

/-- The function of an iteration removes its range and puts another one there. -/
theorem rangemap_hintFree_replaced : ∃ s cells, run (RangeSystem.step 6) (RangeSystem.init 0 100)
    [.alloc 10 5 none (some 1), .alloc 20 5 (some ()) (some 2), .iterate, .dealloc 10 5 none,
      .alloc 12 2 none (some 1), .proceed] = some s ∧ HintFree 6 s.map cells :=
  rangemap_hintFree (by decide) (by decide)

/-! ## Section 4: The count comes around -/

/-- The function of an iteration removes the only range, and then adds and removes one `n` times. In
    the end it adds one at another address. -/
def churn (n : Nat) : List (RangeCall Unit) :=
  [.alloc 0 1 none (some 1), .iterate, .dealloc 0 1 none] ++
    (List.replicate n [.alloc 0 1 none (some 1), .dealloc 0 1 none]).flatten ++
    [.alloc 0 1 none (some 2)]

/-- The map is empty, and the function has been called with the node at 1. -/
def churned (gen : Nat) : RangeSystem Unit where
  map := { LinkedRangemap.init 0 100 with gen := gen }
  iterations := [⟨1, 0, 2⟩]

/-- The same with one range, at `p`. -/
def churnedAt (p gen : Nat) : RangeSystem Unit where
  map :=
    { list := ⟨some p, Function.update (fun _ => none) p (some ⟨none, ⟨0, 0, none⟩⟩)⟩
      hint := .head, loaddr := 0, hiaddr := 100, gen := gen, entries := 1, sectors := 1 }
  iterations := [⟨1, 0, 2⟩]

theorem churned_alloc (p gen : Nat) :
    (churned gen).step 1 (.alloc 0 1 none (some p)) = some (churnedAt p (addU64 gen 1)) := by
  have headdr : subU64 (addU64 0 1) 1 = 0 := rfl
  simp [RangeSystem.step, LinkedRangemap.alloc, LinkedRangemap.lookup, LinkedRangemap.rangeAt,
    LinkedRangemap.rangeAlloc, churned, churnedAt, LinkedRangemap.init, headdr, Memory.deref,
    Memory.write, Memory.store, Link.behind]
  exact ⟨none, rfl⟩

theorem churned_dealloc (p gen : Nat) :
    (churnedAt p gen).step 1 (.dealloc 0 1 none) = some (churned (addU64 gen 1)) := by
  have headdr : subU64 (addU64 0 1) 1 = 0 := rfl
  simp [RangeSystem.step, LinkedRangemap.dealloc, LinkedRangemap.lookup,
    LinkedRangemap.searchFrom, LinkedRangemap.hintAsserted, LinkedRangemap.trim, churned, churnedAt,
    LinkedRangemap.init, headdr, Memory.deref, Memory.store, Memory.free, Link.behind, Link.owner]
  rfl

theorem churned_pairs (n gen : Nat) (hgen : gen < 2 ^ 64) : run (RangeSystem.step 1) (churned gen)
    (List.replicate n [.alloc 0 1 none (some 1), .dealloc 0 1 none]).flatten =
      some (churned ((gen + 2 * n) % 2 ^ 64)) := by
  induction n generalizing gen with
  | zero =>
    rw [Nat.mul_zero, Nat.add_zero, Nat.mod_eq_of_lt hgen]
    rfl
  | succ n ih =>
    have hmod : addU64 (addU64 gen 1) 1 < 2 ^ 64 := Nat.mod_lt _ (by decide)
    rw [replicate_succ, flatten_cons, cons_append, cons_append, nil_append,
      run_cons, churned_alloc, bind_some, run_cons, churned_dealloc, bind_some,
      ih _ hmod]
    congr 2
    unfold addU64
    rw [Nat.mod_add_mod, Nat.add_assoc, Nat.mod_add_mod]
    congr 1
    omega

/-- After `2 ^ 64` changes the count is the same again, but the range is gone: the iteration makes
    its `next` field the hint, and reads it. -/
theorem count_comes_around : ∃ s, run (RangeSystem.step 1) (RangeSystem.init 0 100) (churn (2 ^ 63 - 1)) = some s ∧
    s.iterations = [⟨1, 0, 2⟩] ∧ s.map.list.heap 1 = none ∧ ∀ fuel, s.step fuel .proceed = none := by
  have hstart : run (RangeSystem.step 1) (RangeSystem.init 0 100)
      [.alloc 0 1 none (some 1), .iterate] = some (churnedAt 1 2) := rfl
  have hgen : (addU64 2 1 + 2 * (2 ^ 63 - 1)) % 2 ^ 64 = 1 := by decide
  refine ⟨churnedAt 2 2, ?_, rfl, rfl, fun _ => rfl⟩
  unfold churn
  rw [run_append, run_append]
  change (((run (RangeSystem.step 1) (RangeSystem.init 0 100)
    [.alloc 0 1 none (some 1), .iterate]).bind fun s => run (RangeSystem.step 1) s
      [.dealloc 0 1 none]).bind _).bind _ = _
  rw [hstart, bind_some, run_cons, churned_dealloc, bind_some, run_nil,
    bind_some, churned_pairs _ _ (by decide), hgen, bind_some, run_cons,
    churned_alloc]
  rfl

end Emulab.Imagezip
