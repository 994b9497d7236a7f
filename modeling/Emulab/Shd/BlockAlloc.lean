import Mathlib.Data.Finset.Image
import Emulab.Lib.Machine
import Emulab.Lib.Parts

/-! # The block allocator of the shadow disk

  Blocks of the shadow disk are handed out from a current range. Ranges that
  are freed are queued, and the first one that is large enough becomes the
  current range when the current one does not suffice.
-/

namespace Emulab.Shd

/-! ## Section 1: The allocator -/

/-- Nothing is reclaimed yet. -/
abbrev LAST_CKPT_AUTO_DELETE : Nat := 1

/-- Blocks are freed when checkpoints are deleted. -/
abbrev EXPLICIT_CKPT_DELETE : Nat := 2

/-- The range that blocks are taken from: those from `ptr` on are free. -/
structure CurrentFreeBlockRange where
  start : Int
  stop : Int
  ptr : Int
deriving DecidableEq

/-- A range in the queue. -/
structure FreeSpace where
  start : Int
  stop : Int
  size : Int
deriving DecidableEq

structure Allocator where
  reclaimMethod : Nat
  shadowStart : Int
  shadowSize : Int
  blockRange : CurrentFreeBlockRange
  shdFsHead : List FreeSpace
  /-- How many blocks have been handed out in all. -/
  logSizeUsed : Int
deriving DecidableEq

/-- Blocks from `rangeStart` on, with an empty queue. -/
def initBlockAllocator (method rangeStart rangeSize : Nat) : Allocator where
  reclaimMethod := method
  shadowStart := rangeStart
  shadowSize := rangeSize
  blockRange := ⟨rangeStart, rangeStart + rangeSize, rangeStart⟩
  shdFsHead := []
  logSizeUsed := 0

/-- How many blocks are left in the current range. -/
def currentFreeBlockSize (r : CurrentFreeBlockRange) : Int :=
  if r.stop < r.ptr then -1 else r.stop - r.ptr

/-- Append a range to the queue. -/
def addFreeSpaceToQueue (start stop : Int) (queue : List FreeSpace) : List FreeSpace :=
  queue ++ [⟨start, stop, stop - start⟩]

/-- Look for a neighbour of a range in the queue, and extend it. -/
def mergeFree (start stop size : Int) : List FreeSpace → Option (List FreeSpace)
  | [] => none
  | temp :: rest =>
    let nextToEnd := stop + 1
    let prevToStart := start - 1
    if temp.start = nextToEnd then
      some ({ temp with start := start, size := temp.size + size } :: rest)
    else if temp.stop = prevToStart then
      some ({ temp with stop := stop, size := temp.size + size } :: rest)
    else
      (mergeFree start stop size rest).map (temp :: ·)

/-- Where a range that is freed ends. -/
def freeEnd (a : Allocator) (start size : Int) : Int :=
  if a.shadowSize < start + size then start + size - a.shadowSize + a.shadowStart
  else start + size

/-- Free `size` blocks. -/
def blockFree (start size : Int) (a : Allocator) : Allocator :=
  let stop := freeEnd a start size
  if stop = a.shadowSize ∨ start = a.shadowStart then
    { a with shdFsHead := addFreeSpaceToQueue start stop a.shdFsHead }
  else
    match mergeFree start stop size a.shdFsHead with
    | some queue => { a with shdFsHead := queue }
    | none => { a with shdFsHead := addFreeSpaceToQueue start stop a.shdFsHead }

/-- Take the first range that is large enough out of the queue. -/
def takeFree (size : Int) : List FreeSpace → Option (FreeSpace × List FreeSpace)
  | [] => none
  | temp :: rest =>
    if size ≤ temp.size then some (temp, rest)
    else (takeFree size rest).map fun (found, rest) => (found, temp :: rest)

/-- Make a range of the queue the current one, and queue what is left of the current one. The new range is
    behind all others, so it does not matter whether it is added before the other is removed. -/
def mergeWithNextFreeBlockRange (size : Int) (a : Allocator) : Option Allocator :=
  (takeFree size a.shdFsHead).map fun (temp, rest) =>
    { a with
      shdFsHead :=
        if 0 < currentFreeBlockSize a.blockRange then
          addFreeSpaceToQueue a.blockRange.ptr a.blockRange.stop rest
        else rest
      blockRange := ⟨temp.start, temp.stop, temp.start⟩ }

def takeBlocks (size : Int) (a : Allocator) : Option Int × Allocator :=
  (some a.blockRange.ptr, { a with
      blockRange := { a.blockRange with ptr := a.blockRange.ptr + size }
      logSizeUsed := a.logSizeUsed + size })

/-- Allocate `size` consecutive blocks. The first one is returned, or `none` for SHD_DISK_FULL. -/
def blockAlloc (size : Int) (a : Allocator) : Option Int × Allocator :=
  if currentFreeBlockSize a.blockRange < size ∧ a.reclaimMethod = EXPLICIT_CKPT_DELETE then
    match mergeWithNextFreeBlockRange size a with
    | none => (none, a)
    | some a => takeBlocks size a
  else
    -- the other methods are not implemented
    takeBlocks size a

/-! ## Section 2: Calls -/

inductive Call where
  | alloc (size : Int)
  | free (start size : Int)

/-- `size` blocks from `start` on. -/
def blocks (start size : Int) : Finset Int := (Finset.range size.toNat).image fun (i : Nat) => start + (i : Int)

structure Books where
  allocator : Allocator
  live : Finset Int
deriving DecidableEq

/-- A call changes what is allocated. Only what is allocated is freed. -/
def step (s : Books) : Call → Option Books
  | .alloc size =>
    match blockAlloc size s.allocator with
    | (none, a) => some { s with allocator := a }
    | (some ret, a) => some ⟨a, s.live ∪ blocks ret size⟩
  | .free start size =>
    if blocks start size ⊆ s.live then
      some ⟨blockFree start size s.allocator, s.live \ blocks start size⟩
    else none

/-- Nothing is allocated yet. -/
def start (method rangeStart rangeSize : Nat) : Books :=
  ⟨initBlockAllocator method rangeStart rangeSize, ∅⟩

/-! ## Section 3: No block is lost or handed out twice -/

@[simp] theorem mem_blocks {start size b : Int} : b ∈ blocks start size ↔ start ≤ b ∧ b < start + size := by
  unfold blocks
  rw [Finset.mem_image]
  constructor
  · intro h
    obtain ⟨i, hi, rfl⟩ := h
    rw [Finset.mem_range] at hi
    omega
  · intro h
    exact ⟨(b - start).toNat, Finset.mem_range.mpr (by omega), by omega⟩

/-- The blocks of a range of the queue. -/
def FreeSpace.blocks (r : FreeSpace) : Finset Int := Shd.blocks r.start (r.stop - r.start)

def CurrentFreeBlockRange.blocks (r : CurrentFreeBlockRange) : Finset Int := Shd.blocks r.ptr (r.stop - r.ptr)

/-- Every block of the shadow disk is allocated, left in the current range, or in one range of the queue. -/
structure Sound (R : Finset Int) (s : Books) : Prop where
  /-- Where the blocks are. -/
  splits : Parts.Splits R (s.live :: s.allocator.blockRange.blocks :: s.allocator.shdFsHead.map FreeSpace.blocks)
  sizes : ∀ r ∈ s.allocator.shdFsHead, r.size = r.stop - r.start
  /-- The current range has not been overrun. -/
  ordered : s.allocator.blockRange.ptr ≤ s.allocator.blockRange.stop

def StepOk (s : Books) : Call → Prop
  | .alloc size =>
    0 ≤ size ∧ (s.allocator.reclaimMethod = EXPLICIT_CKPT_DELETE ∨
      size ≤ currentFreeBlockSize s.allocator.blockRange)
  | .free start size =>
    (start + size ≤ s.allocator.shadowSize ∨ s.allocator.shadowStart = s.allocator.shadowSize) ∧
      (start + size = s.allocator.shadowSize ∨ start = s.allocator.shadowStart ∨
        ∀ r ∈ s.allocator.shdFsHead, r.start ≠ start + size + 1 ∧ r.stop ≠ start - 1)

theorem freeEnd_eq {a : Allocator} {start size : Int}
    (h : start + size ≤ a.shadowSize ∨ a.shadowStart = a.shadowSize) : freeEnd a start size = start + size := by
  unfold freeEnd
  split <;> omega

theorem mergeFree_eq_none {start stop size : Int} {queue : List FreeSpace}
    (h : ∀ r ∈ queue, r.start ≠ stop + 1 ∧ r.stop ≠ start - 1) : mergeFree start stop size queue = none := by
  induction queue with
  | nil => rfl
  | cons r rest ih =>
    obtain ⟨hstart, hstop⟩ := h r List.mem_cons_self
    unfold mergeFree
    rw [if_neg hstart, if_neg hstop, ih fun r' hr' => h r' (List.mem_cons_of_mem _ hr')]
    rfl

/-- A range that is freed is queued as it is. -/
theorem blockFree_eq {s : Books} {first size : Int} (hok : StepOk s (.free first size)) :
    blockFree first size s.allocator = { s.allocator with
        shdFsHead := addFreeSpaceToQueue first (first + size) s.allocator.shdFsHead } := by
  obtain ⟨hend, hmerge⟩ := hok
  unfold blockFree
  rw [freeEnd_eq hend]
  dsimp only
  split
  · rfl
  · rename_i hne
    rw [not_or] at hne
    rw [mergeFree_eq_none ((hmerge.resolve_left hne.1).resolve_left hne.2)]

theorem takeFree_spec {size : Int} {queue rest : List FreeSpace} {temp : FreeSpace}
    (h : takeFree size queue = some (temp, rest)) : size ≤ temp.size ∧ queue.Perm (temp :: rest) := by
  induction queue generalizing rest with
  | nil => cases h
  | cons r queue ih =>
    unfold takeFree at h
    split at h
    · rename_i hle
      obtain ⟨rfl, rfl⟩ := Prod.mk.inj (Option.some.inj h)
      exact ⟨hle, .refl _⟩
    · obtain ⟨⟨found, rest'⟩, hfound, heq⟩ := Option.map_eq_some_iff.mp h
      obtain ⟨rfl, rfl⟩ := Prod.mk.inj heq
      obtain ⟨hle, hperm⟩ := ih hfound
      exact ⟨hle, (hperm.cons r).trans (.swap _ _ _)⟩

theorem currentFreeBlockSize_eq {r : CurrentFreeBlockRange} (h : r.ptr ≤ r.stop) :
    currentFreeBlockSize r = r.stop - r.ptr := if_neg (by omega)

variable {R : Finset Int} {s : Books}

theorem Sound.takeBlocks {size : Int} (h : Sound R s) (hsize : 0 ≤ size)
    (hle : size ≤ currentFreeBlockSize s.allocator.blockRange) :
    let ret := s.allocator.blockRange.ptr
    blocks ret size ⊆ R ∧ Disjoint (blocks ret size) s.live ∧
      Sound R ⟨(takeBlocks size s.allocator).2, s.live ∪ blocks ret size⟩ := by
  rw [currentFreeBlockSize_eq h.ordered] at hle
  have hsub : blocks s.allocator.blockRange.ptr size ⊆ s.allocator.blockRange.blocks := by
    intro b hb
    rw [mem_blocks] at hb
    show b ∈ blocks _ _
    rw [mem_blocks]
    omega
  have hrest : s.allocator.blockRange.blocks \ blocks s.allocator.blockRange.ptr size =
      (Shd.takeBlocks size s.allocator).2.blockRange.blocks := by
    ext b
    show b ∈ blocks _ _ \ blocks _ _ ↔ b ∈ blocks (s.allocator.blockRange.ptr + size)
      (s.allocator.blockRange.stop - (s.allocator.blockRange.ptr + size))
    rw [Finset.mem_sdiff, mem_blocks, mem_blocks, mem_blocks]
    omega
  have hdisjoint := (List.pairwise_cons.mp h.splits.disjoint).1 _ List.mem_cons_self
  refine ⟨hsub.trans (h.splits.subset (by simp)), (hdisjoint.mono_right hsub).symm, ?_, h.sizes, ?_⟩
  · have hmove := (h.splits.perm (.swap _ _ _)).move hsub
    rw [hrest] at hmove
    exact hmove.perm (.swap _ _ _)
  · show s.allocator.blockRange.ptr + size ≤ s.allocator.blockRange.stop
    omega

/-- The current range changes places with one of the queue that is large enough. -/
theorem Sound.merge {size : Int} {a : Allocator} (h : Sound R s) (hsize : 0 ≤ size)
    (ha : mergeWithNextFreeBlockRange size s.allocator = some a) :
    Sound R ⟨a, s.live⟩ ∧ size ≤ currentFreeBlockSize a.blockRange := by
  obtain ⟨⟨temp, rest⟩, htake, rfl⟩ := Option.map_eq_some_iff.mp ha
  obtain ⟨hle, hperm⟩ := takeFree_spec htake
  have htemp : temp.size = temp.stop - temp.start := h.sizes temp (hperm.mem_iff.mpr List.mem_cons_self)
  have hrest : ∀ r ∈ rest, r.size = r.stop - r.start :=
    fun r hr => h.sizes r (hperm.mem_iff.mpr (List.mem_cons_of_mem _ hr))
  -- the range of the queue comes to the front, and the current one behind it
  have hsplits : Parts.Splits R (s.allocator.blockRange.blocks :: s.live :: temp.blocks ::
      rest.map FreeSpace.blocks) :=
    (h.splits.perm (.cons _ (.cons _ (hperm.map _)))).perm (.swap _ _ _)
  have hcurrent := currentFreeBlockSize_eq h.ordered
  refine ⟨⟨?_, ?_, ?_⟩, ?_⟩
  · dsimp only
    split
    · unfold addFreeSpaceToQueue
      rw [List.map_append]
      exact hsplits.perm (List.perm_append_singleton _ (_ :: _ :: _)).symm
    · rename_i hnone
      have hempty : s.allocator.blockRange.blocks = ∅ := by
        ext b
        show b ∈ blocks _ _ ↔ _
        rw [mem_blocks]
        simp only [Finset.notMem_empty, iff_false]
        omega
      rw [hempty] at hsplits
      exact Parts.splits_empty.mp hsplits
  · dsimp only
    intro r hr
    split at hr
    · rcases List.mem_append.mp hr with hr | hr
      · exact hrest r hr
      · rw [List.mem_singleton.mp hr]
    · exact hrest r hr
  · show temp.start ≤ temp.stop
    omega
  · rw [currentFreeBlockSize_eq (by show temp.start ≤ temp.stop; omega)]
    show size ≤ temp.stop - temp.start
    omega

/-- What a call would return is inside the shadow disk and not allocated. -/
def AllocOk (R : Finset Int) (s : Books) (size : Int) : Prop :=
  ∀ ret, (blockAlloc size s.allocator).1 = some ret → blocks ret size ⊆ R ∧ Disjoint (blocks ret size) s.live

theorem Sound.blockAlloc {size : Int} (h : Sound R s) (hok : StepOk s (.alloc size)) :
    blockAlloc size s.allocator = (none, s.allocator) ∨
      ∃ ret a, blockAlloc size s.allocator = (some ret, a) ∧ blocks ret size ⊆ R ∧
        Disjoint (blocks ret size) s.live ∧ Sound R ⟨a, s.live ∪ blocks ret size⟩ := by
  obtain ⟨hsize, hmethod⟩ := hok
  unfold Shd.blockAlloc
  by_cases hless : currentFreeBlockSize s.allocator.blockRange < size
  · rw [if_pos ⟨hless, hmethod.resolve_right (by omega)⟩]
    cases hmerge : mergeWithNextFreeBlockRange size s.allocator with
    | none => exact Or.inl rfl
    | some a =>
      obtain ⟨hsound, hle⟩ := h.merge hsize hmerge
      exact Or.inr ⟨_, _, rfl, hsound.takeBlocks hsize hle⟩
  · rw [if_neg fun hand => hless hand.1]
    exact Or.inr ⟨_, _, rfl, h.takeBlocks hsize (by omega)⟩

theorem Sound.allocOk {size : Int} (h : Sound R s) (hok : StepOk s (.alloc size)) : AllocOk R s size := by
  intro ret hret
  rcases h.blockAlloc hok with hnone | ⟨ret', a, hsome, hsub, hdisjoint, -⟩
  · rw [hnone] at hret
    cases hret
  · rw [hsome] at hret
    obtain rfl := Option.some.inj hret
    exact ⟨hsub, hdisjoint⟩

theorem Sound.blockFree {first size : Int} (h : Sound R s) (hok : StepOk s (.free first size))
    (hlive : blocks first size ⊆ s.live) :
    Sound R ⟨blockFree first size s.allocator, s.live \ blocks first size⟩ := by
  rw [blockFree_eq hok]
  refine ⟨?_, ?_, h.ordered⟩
  · -- what is freed goes from the allocated blocks to a new range
    have hmove := ((Parts.splits_empty.mpr h.splits).perm (.swap _ _ _)).move hlive
    have hnew : ∅ ∪ blocks first size = FreeSpace.blocks ⟨first, first + size, first + size - first⟩ := by
      ext b
      show b ∈ ∅ ∪ blocks _ _ ↔ b ∈ blocks first (first + size - first)
      rw [Finset.empty_union, mem_blocks, mem_blocks]
      omega
    rw [hnew] at hmove
    show Parts.Splits R (_ :: _ :: (addFreeSpaceToQueue _ _ _).map _)
    unfold addFreeSpaceToQueue
    rw [List.map_append]
    exact hmove.perm (.cons _ (List.perm_append_singleton _ (_ :: _)).symm)
  · intro r hr
    rcases List.mem_append.mp hr with hr | hr
    · exact h.sizes r hr
    · rw [List.mem_singleton.mp hr]

theorem Sound.step {s' : Books} {c : Call} (h : Sound R s) (hok : StepOk s c) (hstep : step s c = some s') :
    Sound R s' := by
  cases c with
  | alloc size =>
    have hstep : (match Shd.blockAlloc size s.allocator with
      | (none, a) => some { s with allocator := a }
      | (some ret, a) => some ⟨a, s.live ∪ blocks ret size⟩) = some s' := hstep
    rcases h.blockAlloc hok with hnone | ⟨ret, a, hsome, -, -, hsound⟩
    · rw [hnone] at hstep
      exact Option.some.inj hstep ▸ h
    · rw [hsome] at hstep
      exact Option.some.inj hstep ▸ hsound
  | free first size =>
    have hstep : (if blocks first size ⊆ s.live then
      some (Books.mk (Shd.blockFree first size s.allocator) (s.live \ blocks first size)) else none) =
      some s' := hstep
    split at hstep
    · rename_i hlive
      exact Option.some.inj hstep ▸ h.blockFree hok hlive
    · cases hstep

theorem start_sound (method rangeStart rangeSize : Nat) :
    Sound (blocks rangeStart rangeSize) (start method rangeStart rangeSize) := by
  refine ⟨?_, ?_, ?_⟩
  · have hall : (start method rangeStart rangeSize).allocator.blockRange.blocks = blocks rangeStart rangeSize := by
      ext b
      show b ∈ blocks (rangeStart : Int) (rangeStart + rangeSize - rangeStart) ↔ _
      rw [mem_blocks, mem_blocks]
      omega
    show Parts.Splits _ (∅ :: _ :: [])
    rw [hall, Parts.splits_empty]
    exact ⟨List.pairwise_singleton _ _, by simp⟩
  · intro r hr
    cases hr
  · show (rangeStart : Int) ≤ rangeStart + rangeSize
    omega

/-- In every run of calls that meet the condition the blocks are where they should
    be, and a further call that meets it returns free blocks. -/
theorem blockAllocator_sound {method rangeStart rangeSize : Nat} {calls : List Call}
    (hok : Machine.Meets step StepOk (start method rangeStart rangeSize) calls)
    (hrun : Machine.run step (start method rangeStart rangeSize) calls = some s) :
    Sound (blocks rangeStart rangeSize) s ∧
      ∀ size, StepOk s (.alloc size) → AllocOk (blocks rangeStart rangeSize) s size := by
  have hsound := Machine.run_inv (Sound (blocks rangeStart rangeSize))
    (fun _ _ _ h hok hstep => h.step hok hstep) (start_sound method rangeStart rangeSize) hok hrun
  exact ⟨hsound, fun _ => hsound.allocOk⟩

instance (s : Books) : (c : Call) → Decidable (StepOk s c)
  | .alloc _ => inferInstanceAs (Decidable (_ ∧ (_ ∨ _)))
  | .free _ _ => inferInstanceAs (Decidable ((_ ∨ _) ∧ (_ ∨ _ ∨ _)))

/-- Three blocks are allocated and freed, and more than the current range has are allocated. -/
def fewBlocks : List Call := [.alloc 3, .free 6 2, .free 8 1, .alloc 6, .alloc 2]

theorem blockAllocator_sound_fewBlocks : ∃ s, Machine.run step (start EXPLICIT_CKPT_DELETE 6 9) fewBlocks =
    some s ∧ Sound (blocks 6 9) s ∧ AllocOk (blocks 6 9) s 1 := by
  obtain ⟨s, hrun⟩ := Option.isSome_iff_exists.mp (show
    (Machine.run step (start EXPLICIT_CKPT_DELETE 6 9) fewBlocks).isSome by decide +kernel)
  have h := blockAllocator_sound (by decide +kernel) hrun
  have hmethod : (Machine.run step (start EXPLICIT_CKPT_DELETE 6 9) fewBlocks).map
      (fun s => s.allocator.reclaimMethod) = some EXPLICIT_CKPT_DELETE := by
    decide +kernel
  rw [hrun] at hmethod
  exact ⟨s, hrun, h.1, h.2 1 ⟨by decide, Or.inl (Option.some.inj hmethod)⟩⟩

/-- A block between two that are freed is still allocated, and it is handed out
    again: the ends of ranges are taken for their last blocks. -/
theorem merged_over_live : ¬ ∀ (method rangeStart rangeSize : Nat) (calls : List Call) (s : Books),
    Machine.run step (start method rangeStart rangeSize) calls = some s →
    Sound (blocks rangeStart rangeSize) s ∧ ∀ size, AllocOk (blocks rangeStart rangeSize) s size := by
  intro h
  have hrun : (Machine.run step (start EXPLICIT_CKPT_DELETE 6 20)
      [.alloc 4, .free 9 1, .free 7 1, .alloc 16, .alloc 1]).map
        (fun s => ((blockAlloc 1 s.allocator).1, decide ((8 : Int) ∈ s.live))) = some (some 8, true) := by
    decide +kernel
  obtain ⟨s, hs, heq⟩ := Option.map_eq_some_iff.mp hrun
  obtain ⟨hret, hlive⟩ := Prod.mk.inj heq
  have hdisjoint := ((h _ _ _ _ s hs).2 1 8 hret).2
  exact Finset.disjoint_left.mp hdisjoint (mem_blocks.mpr (by decide)) (of_decide_eq_true hlive)

end Emulab.Shd
