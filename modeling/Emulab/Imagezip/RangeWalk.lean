import Emulab.Imagezip.Decls
import Emulab.Imagezip.RangeMap

/-! # Walks over range maps

  The image tools compute one map from another one by a walk over its ranges,
  which adds ranges behind all that they have added before.
-/

namespace Emulab.Imagezip

open MachineInt IntervalMap List Option

variable {α σ : Type}

/-- The lowest address. -/
abbrev NDZ_LOADDR : Nat := 0

/-- The highest address. -/
abbrev NDZ_HIADDR : Nat := 2 ^ 64 - 1

/-! ## Section 1: Iteration -/

/-- The loop of `ndz_rangemap_iterate` over the ranges from one on. The function gets the range and what
    follows it on the list. It does not change the map itself, so the range is not looked up again. -/
def iterateFrom (ifunc : NdzRange α → List (NdzRange α) → σ → Except Failure σ) :
    List (NdzRange α) → σ → Except Failure σ
  | [], arg => .ok arg
  | range :: next, arg => do
    let arg ← ifunc range next arg
    iterateFrom ifunc next arg

/-- Call a function on each range. -/
def ndzRangemapIterate (map : NdzRangemap α)
    (ifunc : NdzRange α → List (NdzRange α) → σ → Except Failure σ) (arg : σ) :
    Except Failure σ :=
  iterateFrom ifunc map.ranges arg

/-- What holds of the ranges behind and ahead of the walk, and of its result so far, holds at the end. -/
theorem iterateFrom_spec {ifunc : NdzRange α → List (NdzRange α) → σ → Except Failure σ}
    (P : List (NdzRange α) → List (NdzRange α) → σ → Prop)
    (hstep : ∀ pre range next arg, P pre (range :: next) arg →
      ∃ arg', ifunc range next arg = .ok arg' ∧ P (pre ++ [range]) next arg')
    {pre ranges : List (NdzRange α)} {arg : σ} (h : P pre ranges arg) :
    ∃ arg', iterateFrom ifunc ranges arg = .ok arg' ∧ P (pre ++ ranges) [] arg' := by
  induction ranges generalizing pre arg with
  | nil => exact ⟨arg, rfl, by rwa [append_nil]⟩
  | cons range next ih =>
    obtain ⟨arg₁, hfunc, h₁⟩ := hstep pre range next arg h
    obtain ⟨arg', hiter, h'⟩ := ih h₁
    refine ⟨arg', ?_, ?_⟩
    · unfold iterateFrom
      rw [hfunc]
      exact hiter
    · rwa [append_cons]

/-! ## Section 2: Allocation behind all ranges -/

/-- What a caller of `ndz_rangemap_alloc` does with its result, if it fails in
    the given way where an error is returned. -/
def allocResult (fail : Failure) (res : Option (Option Errno × NdzRangemap α)) : Except Failure (NdzRangemap α) :=
  match res with
  | some (none, map) => .ok map
  | some (some _, _) => .error fail
  | none => .error .assertion

@[simp] theorem allocResult_ok (fail : Failure) (map : NdzRangemap α) :
    allocResult fail (some (none, map)) = .ok map := rfl

theorem eaddr_eq {addr size hiaddr : Nat} (hsize : 0 < size) (hhi : addr + size - 1 ≤ hiaddr)
    (hhi64 : hiaddr < 2 ^ 64) : subU64 (addU64 addr size) 1 = addr + size - 1 := by
  simp only [addU64, subU64]
  omega

theorem ndzRangemapAlloc_behind_cases {map : NdzRangemap α} (hinv : map.Inv) {addr size : Nat}
    {data : Option α} (hsize : 0 < size) (hlo : map.loaddr ≤ addr)
    (hhi : addr + size - 1 ≤ map.hiaddr) (hbehind : ∀ r ∈ map.ranges, r.last < addr)
    {err : Option Errno} {map' : NdzRangemap α}
    (halloc : ndzRangemapAlloc map addr size data false = some (err, map')) :
    err = none ∧ map'.sectors = addU64 map.sectors size ∧
      (data.isSome → map'.ranges = map.ranges ++ [⟨addr, addr + size - 1, data⟩]) := by
  have headdr := eaddr_eq hsize hhi hinv.hiaddr
  obtain ⟨res, hres, hfound⟩ := ndzRangemapLookup_spec hinv.sorted addr
  unfold ndzRangemapAlloc at halloc
  have hbounds : ¬ (subU64 (addU64 addr size) 1 < addr ∨ addr < map.loaddr ∨
      map.hiaddr < subU64 (addU64 addr size) 1) := by
    omega
  simp only [if_neg hbounds, hres, bind_eq_bind, bind_some] at halloc
  obtain ⟨pre, range, post, hsplit, hmem, -, -, -⟩ | ⟨pre, post, hsplit, -, hpost, hrange, hprev, -⟩ := hfound
  · have := hbehind range (hsplit ▸ mem_append_right _ mem_cons_self)
    have := hmem.2
    omega
  · -- the search ends behind the last range
    obtain rfl : post = [] := by
      rw [eq_nil_iff_forall_not_mem]
      intro r hr
      have hmem : r ∈ map.ranges := hsplit ▸ mem_append_right _ hr
      have := hpost r hr
      have := hbehind r hmem
      have := hinv.sorted.nonempty r hmem
      omega
    rw [append_nil] at hsplit
    have hlink : linkOf res.prev = map.ranges.length := by
      rw [hprev, linkOf_prevOf, hsplit]
    have hnext : map.ranges[linkOf res.prev]? = none := by
      rw [hlink, List.getElem?_eq_none le_rfl]
    simp only [hrange, isSome_none, Bool.false_eq_true, if_false, hnext, any_none] at halloc
    split at halloc
    · rename_i hmerge
      cases halloc
      refine ⟨rfl, ?_, ?_⟩
      · simp only [mergeRange, filter_none]
        split <;> rfl
      · intro hsome
        simp [isNone_iff_eq_none.mp hmerge.1] at hsome
    · cases halloc
      refine ⟨rfl, rfl, ?_⟩
      intro _
      rw [hlink, headdr, insertIdx_length_self]

theorem ndzRangemapAlloc_behind {map : NdzRangemap α} (hinv : map.Inv) (addr size : Nat)
    (data : Option α) (hsize : 0 < size) (hlo : map.loaddr ≤ addr)
    (hhi : addr + size - 1 ≤ map.hiaddr) (hbehind : ∀ r ∈ map.ranges, r.last < addr)
    (hroom : map.sectors + size < 2 ^ 64) :
    ∃ map', ndzRangemapAlloc map addr size data false = some (none, map') ∧
      Effect map addr size (some data) none map' ∧ map'.sectors = map.sectors + size := by
  have hhi64 := hinv.hiaddr
  have headdr := eaddr_eq hsize hhi hhi64
  have hok : AllocOk map addr size data := by
    rintro ⟨_, ⟨_, p, _, n, hn, _, hnabut, _⟩ | hfull⟩
    · have := hbehind n hn
      have := hinv.sorted.nonempty n hn
      omega
    · omega
  obtain ⟨err, map', halloc, heff⟩ := ndzRangemapAlloc_spec hinv (by omega) (by omega) hok false
  obtain ⟨rfl, hsectors, _⟩ := ndzRangemapAlloc_behind_cases hinv hsize hlo hhi hbehind halloc
  exact ⟨map', halloc, heff, hsectors.trans (addU64_of_lt hroom)⟩

theorem Effect.last_lt {map map' : NdzRangemap α} {addr size : Nat} {data : Option α}
    (h : Effect map addr size (some data) none map') (hinv : map.Inv) (hsize : 0 < size)
    (hbehind : ∀ r ∈ map.ranges, r.last < addr) : ∀ r ∈ map'.ranges, r.last < addr + size := by
  intro r hr
  have hget : map'.get r.last = some r.data :=
    (get_eq_some_iff h.inv.sorted).mpr ⟨r, hr, ⟨h.inv.sorted.nonempty r hr, le_rfl⟩, rfl⟩
  rw [h.success rfl] at hget
  by_cases hin : addr ≤ r.last ∧ r.last < addr + size
  · exact hin.2
  · rw [if_neg hin] at hget
    obtain ⟨r', hr', hmem, -⟩ := (get_eq_some_iff hinv.sorted).mp hget
    have := hbehind r' hr'
    have := hmem.2
    omega

end Emulab.Imagezip
