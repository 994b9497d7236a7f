import Emulab.Dre.Dijkstra
import Mathlib.Algebra.BigOperators.Group.Multiset.Basic
import Mathlib.Data.Nat.Log

/-! # Trees of minimum height

  A forest is joined into one binary tree of minimum height. One function finds the
  height from the number of trees of each height, by carrying pairs to the next
  height, and the other joins the two lowest trees until one is left.
-/

namespace Emulab.Dre

open Function List

/-! ## Section 1: Model -/

/-- The depth, the height, and the two sides. -/
inductive Tree where
  | NoNode
  | TreeNode (depth height : Int) (left right : Tree)

inductive MinTreeExn where
  | TooManyBits
  | Failure
  | heap (e : Exn)
deriving DecidableEq

/-- The loop of `height_of` from bin `i` on; the bins before are not looked at again. -/
def heightLoop (i bits_used : Nat) : List Int → Except MinTreeExn Nat
  | [] => .ok bits_used
  | b :: newbins =>
    if b ≠ 0 then
      let quotient := b.tdiv 2
      let remainder := b.tmod 2
      if (quotient = 0 ∧ remainder = 1) ∧ newbins.all (· = 0) then heightLoop (i + 1) i newbins
      else if quotient > 0 ∧ newbins = [] then .error .TooManyBits
      else
        match newbins with
        | [] => .error (.heap .Invalid_argument)
        | next :: newbins =>
          let next := add next quotient
          -- a leftover is promoted, to be combined with some larger subtree
          heightLoop (i + 1) bits_used ((if remainder ≠ 0 then add next remainder else next) :: newbins)
    else heightLoop (i + 1) bits_used newbins
termination_by newbins => newbins.length

def height_of (bins : List Int) : Except MinTreeExn Nat := heightLoop 0 0 bins

def init_heap : List Tree → Heap Tree → Except MinTreeExn (Heap Tree)
  | [], heap => .ok heap
  | .NoNode :: _, _ => .error .Failure
  | .TreeNode depth height left right :: tail, heap =>
    match heap.insert_obj height (.TreeNode depth height left right) with
    | .error e => .error (.heap e)
    | .ok (_, heap) => init_heap tail heap

/-- Join the two lowest trees. -/
def combine (heap : Heap Tree) : Except Exn (Heap Tree) := do
  let (height1, tree1) ← heap.min
  let heap ← heap.extract_min
  let (height2, tree2) ← heap.min
  let heap ← heap.extract_min
  let newheight := max height1 height2 + 1
  let (_, heap) ← heap.insert_obj newheight (.TreeNode 0 newheight tree1 tree2)
  return heap

/-- The `while` loop, `none` if it has not ended after so many turns. -/
def combineLoop : Nat → Heap Tree → Option (Except Exn (Heap Tree))
  | 0, heap => if heap.len > 1 then none else some (.ok heap)
  | fuel + 1, heap =>
    if heap.len > 1 then
      match combine heap with
      | .error e => some (.error e)
      | .ok heap => combineLoop fuel heap
    else some (.ok heap)

def min_depth_tree (forest : List Tree) : Option (Except MinTreeExn Tree) :=
  match init_heap forest (Heap.make_heap .NoNode) with
  | .error e => some (.error e)
  | .ok heap =>
    (combineLoop heap.len heap).map fun r =>
      match r.bind Heap.min with
      | .error e => .error (.heap e)
      | .ok (_, root) => .ok root

/-! ## Section 2: Carrying -/

/-- The sum of `bins.(i) * 2 ^ i`. -/
def weight : List Int → Nat
  | [] => 0
  | b :: bins => b.toNat + 2 * weight bins

theorem weight_eq_zero {bins : List Int} (h : ∀ b ∈ bins, 0 ≤ b) : weight bins = 0 ↔ bins.all (· = 0) = true := by
  induction bins with
  | nil => simp [weight]
  | cons b bins ih =>
    obtain ⟨hb, hbins⟩ := forall_mem_cons.mp h
    rw [all_cons, Bool.and_eq_true, ← ih hbins, weight, decide_eq_true_eq]
    omega

/-- What the loop should find in `len` bins of this weight from bin `i` on. -/
def minHeight (len i bits_used w : Nat) : Except MinTreeExn Nat :=
  if w = 0 then .ok bits_used
  else if Nat.clog 2 w < len then .ok (i + Nat.clog 2 w)
  else .error .TooManyBits

theorem minHeight_halve {w : Nat} (hw : 2 ≤ w) (len i bits_used : Nat) :
    minHeight (len + 1) i bits_used w = minHeight len (i + 1) bits_used ((w + 1) / 2) := by
  have hclog : Nat.clog 2 w = Nat.clog 2 ((w + 1) / 2) + 1 := Nat.clog_of_two_le (by decide) hw
  unfold minHeight
  rw [if_neg (by omega : ¬w = 0), if_neg (by omega : ¬(w + 1) / 2 = 0), hclog]
  by_cases hfits : Nat.clog 2 ((w + 1) / 2) < len
  · rw [if_pos (by omega), if_pos hfits, Nat.add_assoc, Nat.add_comm 1]
  · rw [if_neg (by omega), if_neg hfits]

theorem add_counts {a b : Int} (h : 0 ≤ a + b) (hle : a + b ≤ max_int) : add a b = a + b := by
  unfold max_int at hle
  exact Int.bmod_eq_of_le (by omega) (by omega)

theorem heightLoop_eq {bins : List Int} (h : ∀ b ∈ bins, 0 ≤ b) (hsum : bins.sum ≤ max_int)
    (i bits_used : Nat) : heightLoop i bits_used bins = minHeight bins.length i bits_used (weight bins) := by
  induction hlen : bins.length generalizing bins i bits_used with
  | zero =>
    obtain rfl := length_eq_zero_iff.mp hlen
    rw [heightLoop]
    rfl
  | succ n ih =>
    obtain ⟨b, rest, rfl⟩ := exists_cons_of_length_eq_add_one hlen
    obtain ⟨hb, hrest⟩ := forall_mem_cons.mp h
    have hnonneg := sum_nonneg hrest
    have hlen : rest.length = n := Nat.succ_inj.mp hlen
    have hzero := weight_eq_zero hrest
    rw [sum_cons] at hsum
    rw [heightLoop, weight]
    by_cases hempty : b = 0
    · rw [if_neg (not_not.mpr hempty), ih hrest (by omega) _ _ hlen, hempty]
      by_cases hw : weight rest = 0
      · rw [hw]
        rfl
      · rw [minHeight_halve (by rw [Int.toNat_zero]; omega)]
        congr 1
        omega
    · rw [if_pos hempty]
      dsimp only
      simp only [← hzero, Int.tdiv_eq_ediv_of_nonneg hb, Int.tmod_eq_emod_of_nonneg hb]
      by_cases hdone : (b / 2 = 0 ∧ b % 2 = 1) ∧ weight rest = 0
      · -- one tree is left, and nothing behind it
        have hone : b = 1 := by omega
        rw [if_pos hdone, ih hrest (by omega) _ _ hlen, hdone.2, hone]
        simp [minHeight, Nat.clog_one_right]
      · have hw : 2 ≤ b.toNat + 2 * weight rest := by omega
        rw [if_neg hdone, minHeight_halve hw]
        cases rest with
        | nil =>
          have htwo : b / 2 > 0 := by
            simp only [weight] at hw
            omega
          rw [if_pos ⟨htwo, rfl⟩, ← hlen]
          unfold minHeight
          rw [if_neg (by omega)]
          simp
        | cons next rest =>
          obtain ⟨hnext, hrest⟩ := forall_mem_cons.mp hrest
          rw [sum_cons] at hsum hnonneg
          have hnonneg := sum_nonneg hrest
          rw [if_neg (by simp)]
          dsimp only
          have hpairs : add next (b / 2) = next + b / 2 := add_counts (by omega) (by omega)
          have hcarry : (if b % 2 ≠ 0 then add (add next (b / 2)) (b % 2) else add next (b / 2)) =
              next + (b + 1) / 2 := by
            rw [hpairs]
            split
            · rw [add_counts (by omega) (by omega)]
              omega
            · omega
          have hcounts : ∀ c ∈ (next + (b + 1) / 2) :: rest, 0 ≤ c := forall_mem_cons.mpr ⟨by omega, hrest⟩
          rw [hcarry, ih hcounts (by rw [sum_cons]; omega) _ _ hlen]
          congr 1
          simp only [weight]
          omega

theorem height_of_eq {bins : List Int} (h : ∀ b ∈ bins, 0 ≤ b) (hsum : bins.sum ≤ max_int) :
    height_of bins = if Nat.clog 2 (weight bins) ≤ bins.length - 1 then .ok (Nat.clog 2 (weight bins))
      else .error .TooManyBits := by
  refine (heightLoop_eq h hsum 0 0).trans ?_
  unfold minHeight
  by_cases hw : weight bins = 0
  · rw [if_pos hw, hw, Nat.clog_zero_right, if_pos (Nat.zero_le _)]
  · have hpos : 0 < bins.length := length_pos_iff.mpr fun hnil => hw (by rw [hnil]; rfl)
    rw [if_neg hw, Nat.zero_add]
    exact if_congr (by omega) rfl rfl

/-! ## Section 3: What is in the heap -/

namespace Heap

variable {α : Type} {h h' : Heap α}

/-- The elements, wherever they are. -/
def bag (h : Heap α) : Multiset (Int × α) :=
  (Multiset.range h.len).map fun i => (h.keyAt i, (h.data (h.arr i)).value)

@[simp] theorem card_bag (h : Heap α) : h.bag.card = h.len := by simp [bag]

def refs (h : Heap α) : Finset Ref := (Finset.range h.len).image h.arr

theorem Linked.bag_eq (hl : h.Linked) : h.bag = h.refs.val.map fun d => ((h.data d).key, (h.data d).value) := by
  have hinj : Set.InjOn h.arr (Finset.range h.len) := fun i hi j hj heq =>
    hl.arr_inj (Finset.mem_range.mp hi) (Finset.mem_range.mp hj) heq
  rw [refs, Finset.image_val_of_injOn hinj, Multiset.map_map, Finset.range_val]
  rfl

theorem Sound.mem_refs {held : Ref → Option (Int × α)} (hs : h.Sound held) (d : Ref) :
    d ∈ h.refs ↔ (held d).isSome := by
  rw [← hs.member_iff]
  simp [refs, Member]

/-- One heap has an element more than the other. -/
theorem Sound.bag_cons {held : Ref → Option (Int × α)} {d : Ref} {x : Int × α} (hs : h.Sound held)
    (hs' : h'.Sound (update held d (some x))) (hnone : held d = none) : h'.bag = x ::ₘ h.bag := by
  have hnew : d ∉ h.refs := by
    rw [hs.mem_refs, hnone]
    simp
  have hrefs : h'.refs = insert d h.refs := by
    ext e
    rw [hs'.mem_refs, Finset.mem_insert, hs.mem_refs]
    by_cases he : e = d
    · simp [he]
    · simp [he]
  rw [hs'.linked.bag_eq, hs.linked.bag_eq, hrefs, Finset.insert_val_of_notMem hnew, Multiset.map_cons]
  congr 1
  · obtain ⟨-, hkey, hvalue⟩ := (hs'.held d x.1 x.2).mp (update_self _ _ _)
    rw [hkey, hvalue]
  · refine Multiset.map_congr rfl fun e he => ?_
    obtain ⟨⟨k, v⟩, hk⟩ := Option.isSome_iff_exists.mp ((hs.mem_refs e).mp he)
    have hne : e ≠ d := fun heq => hnew (heq ▸ he)
    obtain ⟨-, hkey, hvalue⟩ := (hs.held e k v).mp hk
    obtain ⟨-, hkey', hvalue'⟩ := (hs'.held e k v).mp ((update_of_ne hne _ _).trans hk)
    rw [hkey, hvalue, hkey', hvalue']

def InOrder (h : Heap α) : Prop := ∃ held, h.Sound held

theorem InOrder.insert_obj (hs : h.InOrder) (key : Int) (value : α) : ∃ d h',
    h.insert_obj key value = .ok (d, h') ∧ h'.InOrder ∧ h'.bag = (key, value) ::ₘ h.bag := by
  obtain ⟨held, hs⟩ := hs
  obtain ⟨d, h', hok, hnone, hs'⟩ := hs.insert_obj key value
  exact ⟨d, h', hok, ⟨_, hs'⟩, hs.bag_cons hs' hnone⟩

/-- The least element is taken out. -/
theorem InOrder.extract_min (hs : h.InOrder) (hlen : 0 < h.len) : ∃ x h', h.min = .ok x ∧
    h.extract_min = .ok h' ∧ h'.InOrder ∧ h.bag = x ::ₘ h'.bag ∧ ∀ y ∈ h'.bag, x.1 ≤ y.1 := by
  obtain ⟨held, hs⟩ := hs
  obtain ⟨hmin, hleast⟩ := hs.min hlen
  obtain ⟨h', hok, hs'⟩ := hs.extract_min hlen
  have hback : update (update held (h.arr 0) none) (h.arr 0)
      (some (h.keyAt 0, (h.data (h.arr 0)).value)) = held := by
    rw [update_idem, ← hs.held_arr hlen, update_eq_self]
  have hbag := hs'.bag_cons (hback ▸ hs) (update_self _ _ _)
  refine ⟨_, h', hmin, hok, ⟨_, hs'⟩, hbag, fun y hy => ?_⟩
  have hmem : y ∈ h.bag := hbag ▸ Multiset.mem_cons_of_mem hy
  obtain ⟨i, hi, rfl⟩ := Multiset.mem_map.mp hmem
  exact hleast _ _ _ (hs.held_arr (Multiset.mem_range.mp hi))

end Heap

/-! ## Section 4: Joining trees -/

/-- The levels of a tree; a tree of height `h` has `h + 1`. -/
def Tree.levels : Tree → Nat
  | .NoNode => 0
  | .TreeNode _ _ left right => max left.levels right.levels + 1

def Tree.height : Tree → Int
  | .NoNode => -1
  | .TreeNode _ height _ _ => height

/-- A tree whose height is right. -/
def Tree.Marked (t : Tree) : Prop := 0 ≤ t.height ∧ (t.levels : Int) = t.height + 1

/-- Trees that come from a forest by joining two at a time. -/
inductive Joined (forest : Multiset Tree) : Multiset Tree → Prop
  | none : Joined forest forest
  | join {rest : Multiset Tree} (depth height : Int) (left right : Tree)
      (h : Joined forest (left ::ₘ right ::ₘ rest)) :
      Joined forest (.TreeNode depth height left right ::ₘ rest)

/-- Joining two lowest trees leaves the minimum height as it is. -/
theorem clog_join {a b : Nat} {rest : Multiset Nat} (hab : a ≤ b) (hrest : ∀ c ∈ rest, b ≤ c) :
    Nat.clog 2 (2 ^ (b + 1) + (rest.map (2 ^ ·)).sum) = Nat.clog 2 (2 ^ a + (2 ^ b + (rest.map (2 ^ ·)).sum)) := by
  have hle : 2 ^ a ≤ 2 ^ b := Nat.pow_le_pow_right (by decide) hab
  have hpos : 0 < 2 ^ a := Nat.two_pow_pos a
  obtain ⟨m, hm⟩ : 2 ^ b ∣ (rest.map (2 ^ ·)).sum := by
    refine Multiset.dvd_sum fun x hx => ?_
    obtain ⟨c, hc, rfl⟩ := Multiset.mem_map.mp hx
    exact pow_dvd_pow 2 (hrest c hc)
  rw [hm, pow_succ]
  refine le_antisymm (Nat.clog_le_of_le_pow ?_) (Nat.clog_mono_right 2 (by omega))
  have hfits := Nat.le_pow_clog Nat.one_lt_two (2 ^ a + (2 ^ b + 2 ^ b * m))
  generalize Nat.clog 2 (2 ^ a + (2 ^ b + 2 ^ b * m)) = n at hfits
  have hbn : b < n := (Nat.pow_lt_pow_iff_right Nat.one_lt_two).mp (by omega)
  -- all but the lowest tree are multiples of `2 ^ b`, and so is the bound
  obtain ⟨k, rfl⟩ := Nat.exists_eq_add_of_lt hbn
  have hpow : 2 ^ (b + k + 1) = 2 ^ b * 2 ^ (k + 1) := by rw [Nat.add_assoc, pow_add]
  rw [hpow] at hfits ⊢
  have hlt : 2 ^ b * (m + 1) < 2 ^ b * 2 ^ (k + 1) := by
    rw [Nat.mul_add]
    omega
  calc 2 ^ b * 2 + 2 ^ b * m = 2 ^ b * (m + 2) := by ring
    _ ≤ 2 ^ b * 2 ^ (k + 1) := Nat.mul_le_mul_left _ (Nat.lt_of_mul_lt_mul_left hlt)

/-- The trees in the heap have the heights that they are kept with, and have been joined from the forest. -/
structure Joining (forest : Multiset Tree) (bag : Multiset (Int × Tree)) : Prop where
  levels : ∀ x ∈ bag, 0 ≤ x.1 ∧ (x.2.levels : Int) = x.1 + 1
  joined : Joined forest (bag.map Prod.snd)

/-- The least height of a tree of trees with these heights. -/
def leastHeight (bag : Multiset (Int × Tree)) : Nat :=
  Nat.clog 2 ((bag.map fun x => x.1.toNat).map (2 ^ ·)).sum

theorem combine_spec {forest : Multiset Tree} {heap : Heap Tree} (hs : heap.InOrder) (hlen : 1 < heap.len)
    (hj : Joining forest heap.bag) : ∃ heap', combine heap = .ok heap' ∧ heap'.InOrder ∧
      heap'.len + 1 = heap.len ∧ Joining forest heap'.bag ∧
      leastHeight heap'.bag = leastHeight heap.bag := by
  obtain ⟨⟨height1, tree1⟩, heap₁, hmin₁, hex₁, hs₁, hbag₁, hle₁⟩ := hs.extract_min (by omega)
  have hcard₁ := congrArg Multiset.card hbag₁
  rw [Multiset.card_cons, Heap.card_bag, Heap.card_bag] at hcard₁
  obtain ⟨⟨height2, tree2⟩, heap₂, hmin₂, hex₂, hs₂, hbag₂, hle₂⟩ := hs₁.extract_min (by omega)
  obtain ⟨d, heap', hins, hs', hbag'⟩ := hs₂.insert_obj (max height1 height2 + 1)
    (.TreeNode 0 (max height1 height2 + 1) tree1 tree2)
  have hle : height1 ≤ height2 := hle₁ _ (hbag₂ ▸ Multiset.mem_cons_self _ _)
  rw [hbag₂] at hbag₁
  rw [max_eq_right hle] at hins hbag'
  have hcard := congrArg Multiset.card hbag'
  have hcard₂ := congrArg Multiset.card hbag₂
  rw [Multiset.card_cons, Heap.card_bag, Heap.card_bag] at hcard hcard₂
  rw [hbag₁] at hj
  obtain ⟨hpos₁, hlevels₁⟩ := hj.levels _ (Multiset.mem_cons_self _ _)
  obtain ⟨hpos₂, hlevels₂⟩ := hj.levels _ (Multiset.mem_cons_of_mem (Multiset.mem_cons_self _ _))
  dsimp only at hpos₁ hlevels₁ hpos₂ hlevels₂
  refine ⟨heap', ?_, hs', by omega, ?_, ?_⟩
  · simp only [combine, hmin₁, hex₁, hmin₂, hex₂, max_eq_right hle, hins, bind, pure, Except.bind, Except.pure]
  · rw [hbag']
    refine ⟨Multiset.forall_mem_cons.mpr ⟨⟨by dsimp only; omega, ?_⟩, fun x hx =>
      hj.levels x (Multiset.mem_cons_of_mem (Multiset.mem_cons_of_mem hx))⟩, ?_⟩
    · dsimp only [Tree.levels]
      omega
    · have hjoined := hj.joined
      rw [Multiset.map_cons, Multiset.map_cons] at hjoined
      rw [Multiset.map_cons]
      exact hjoined.join 0 (height2 + 1) tree1 tree2
  · have hsucc : (height2 + 1).toNat = height2.toNat + 1 := by omega
    unfold leastHeight
    rw [hbag', hbag₁]
    simp only [Multiset.map_cons, Multiset.sum_cons, hsucc]
    refine clog_join (by omega) fun c hc => ?_
    obtain ⟨x, hx, rfl⟩ := Multiset.mem_map.mp hc
    have := hle₂ x hx
    dsimp only at this
    omega

theorem combineLoop_spec {forest : Multiset Tree} {fuel : Nat} {heap : Heap Tree} (hs : heap.InOrder)
    (hlen : 0 < heap.len) (hfuel : heap.len ≤ fuel + 1) (hj : Joining forest heap.bag) :
    ∃ heap', combineLoop fuel heap = some (.ok heap') ∧ heap'.InOrder ∧ heap'.len = 1 ∧
      Joining forest heap'.bag ∧ leastHeight heap'.bag = leastHeight heap.bag := by
  induction fuel generalizing heap with
  | zero => exact ⟨heap, if_neg (by omega), hs, by omega, hj, rfl⟩
  | succ fuel ih =>
    unfold combineLoop
    by_cases hmore : heap.len > 1
    · obtain ⟨heap₁, hok, hs₁, hlen₁, hj₁, hleast₁⟩ := combine_spec hs hmore hj
      obtain ⟨heap', hloop, hs', hlen', hj', hleast⟩ := ih hs₁ (by omega) (by omega) hj₁
      rw [if_pos hmore, hok]
      exact ⟨heap', hloop, hs', hlen', hj', hleast.trans hleast₁⟩
    · rw [if_neg hmore]
      exact ⟨heap, rfl, hs, by omega, hj, rfl⟩

theorem init_heap_spec {forest : List Tree} (h : ∀ t ∈ forest, t.Marked) {heap : Heap Tree}
    (hs : heap.InOrder) : ∃ heap', init_heap forest heap = .ok heap' ∧ heap'.InOrder ∧
      heap'.bag = (forest.map fun t => (t.height, t) : Multiset (Int × Tree)) + heap.bag := by
  induction forest generalizing heap with
  | nil => exact ⟨heap, rfl, hs, by simp⟩
  | cons t forest ih =>
    obtain ⟨hmarked, htail⟩ := forall_mem_cons.mp h
    cases t with
    | NoNode => exact absurd hmarked.1 (by decide)
    | TreeNode depth height left right =>
      obtain ⟨d, heap₁, hins, hs₁, hbag₁⟩ := hs.insert_obj height (.TreeNode depth height left right)
      obtain ⟨heap', hok, hs', hbag'⟩ := ih htail hs₁
      refine ⟨heap', by rw [init_heap, hins]; exact hok, hs', ?_⟩
      rw [hbag', hbag₁, Multiset.add_cons, map_cons, ← Multiset.cons_coe, Multiset.cons_add]
      rfl

theorem min_depth_tree_spec {forest : List Tree} (hne : forest ≠ []) (h : ∀ t ∈ forest, t.Marked) :
    ∃ root, min_depth_tree forest = some (.ok root) ∧ Joined forest {root} ∧
      root.levels = Nat.clog 2 (forest.map fun t => 2 ^ t.height.toNat).sum + 1 := by
  have hempty : (Heap.make_heap Tree.NoNode).InOrder := ⟨_, Heap.sound_make_heap _⟩
  obtain ⟨heap, hinit, hs, hbag⟩ := init_heap_spec h hempty
  have hbag : heap.bag = (forest.map fun t => (t.height, t) : Multiset (Int × Tree)) :=
    hbag.trans (add_zero _)
  have hlen : heap.len = forest.length := by
    rw [← Heap.card_bag, hbag]
    simp
  have hj : Joining forest heap.bag := by
    rw [hbag]
    refine ⟨fun x hx => ?_, by simpa [comp_def] using Joined.none⟩
    obtain ⟨t, ht, rfl⟩ := mem_map.mp hx
    exact h t ht
  have hpos := length_pos_iff.mpr hne
  obtain ⟨heap', hloop, hs', hlen', hj', hleast⟩ := combineLoop_spec hs (by omega) (Nat.le_succ heap.len) hj
  obtain ⟨x, heap'', hmin, -, -, hbag', -⟩ := hs'.extract_min (by omega)
  have hlast : heap''.bag = 0 := by
    have hcard := congrArg Multiset.card hbag'
    rw [Heap.card_bag, Multiset.card_cons] at hcard
    exact Multiset.card_eq_zero.mp (by omega)
  rw [hbag', hlast] at hj' hleast
  obtain ⟨hx, hlevels⟩ := hj'.levels x (Multiset.mem_cons_self _ _)
  refine ⟨x.2, ?_, hj'.joined, ?_⟩
  · unfold min_depth_tree
    rw [hinit]
    dsimp only
    rw [hloop, Option.map_some, Except.bind, hmin]
  · have hsum : leastHeight heap.bag = Nat.clog 2 (forest.map fun t => 2 ^ t.height.toNat).sum := by
      simp [leastHeight, hbag, comp_def]
    have hone : leastHeight (x ::ₘ 0) = x.1.toNat := by
      simp [leastHeight, Nat.clog_pow]
    omega

/-! ## Section 5: No tree is lower -/

/-- The trees are disjoint subtrees. -/
inductive Contains : Tree → Multiset Tree → Prop
  | nothing (t : Tree) : Contains t 0
  | self (t : Tree) : Contains t {t}
  | sides {left right : Tree} {F G : Multiset Tree} (depth height : Int) (hl : Contains left F)
      (hr : Contains right G) : Contains (.TreeNode depth height left right) (F + G)

theorem Contains.sum_le {t : Tree} {F : Multiset Tree} (h : Contains t F) :
    (F.map fun t => 2 ^ t.levels).sum ≤ 2 ^ t.levels := by
  induction h with
  | nothing t => simp
  | self t => simp
  | @sides left right F G depth height hl hr ihl ihr =>
    rw [Multiset.map_add, Multiset.sum_add, Tree.levels, pow_succ]
    have hleft : 2 ^ left.levels ≤ 2 ^ max left.levels right.levels :=
      Nat.pow_le_pow_right (by decide) (le_max_left _ _)
    have hright : 2 ^ right.levels ≤ 2 ^ max left.levels right.levels :=
      Nat.pow_le_pow_right (by decide) (le_max_right _ _)
    omega

def heightsOf (i : Nat) : List Int → Multiset Nat
  | [] => 0
  | b :: bins => Multiset.replicate b.toNat i + heightsOf (i + 1) bins

theorem sum_heightsOf (i : Nat) (bins : List Int) :
    ((heightsOf i bins).map (2 ^ ·)).sum = 2 ^ i * weight bins := by
  induction bins generalizing i with
  | nil => rfl
  | cons b bins ih =>
    rw [heightsOf, Multiset.map_add, Multiset.sum_add, ih, weight, Multiset.map_replicate,
      Multiset.sum_replicate, smul_eq_mul, pow_succ]
    ring

theorem height_of_least (bins : List Int) (hcounts : ∀ b ∈ bins, 0 ≤ b) (hsum : bins.sum ≤ max_int) :
    height_of bins = (if Nat.clog 2 (weight bins) ≤ bins.length - 1 then .ok (Nat.clog 2 (weight bins))
      else .error .TooManyBits) ∧
    ∀ forest : List Tree, forest ≠ [] → (∀ t ∈ forest, t.Marked) →
      (forest.map fun t => t.height.toNat : Multiset Nat) = heightsOf 0 bins →
      (∃ root, min_depth_tree forest = some (.ok root) ∧ Joined forest {root} ∧
        root.levels = Nat.clog 2 (weight bins) + 1) ∧
      ∀ t, Contains t forest → Nat.clog 2 (weight bins) + 1 ≤ t.levels := by
  refine ⟨height_of_eq hcounts hsum, fun forest hne hmarked hheights => ?_⟩
  have hweight : (forest.map fun t => 2 ^ t.height.toNat).sum = weight bins := by
    have h := sum_heightsOf 0 bins
    rw [← hheights, pow_zero, Nat.one_mul] at h
    rw [← h]
    simp [comp_def]
  constructor
  · rw [← hweight]
    exact min_depth_tree_spec hne hmarked
  · intro t ht
    have hle := ht.sum_le
    have hdouble : (forest.map fun t => 2 ^ t.levels).sum = 2 * weight bins := by
      rw [← hweight, ← sum_map_mul_left]
      congr 1
      refine map_congr_left fun t ht => ?_
      obtain ⟨hpos, hlevels⟩ := hmarked t ht
      rw [show t.levels = t.height.toNat + 1 by omega, pow_succ, Nat.mul_comm]
    have hpos : 0 < weight bins := by
      obtain ⟨t, rest, rfl⟩ := exists_cons_of_ne_nil hne
      rw [← hweight, map_cons, sum_cons]
      exact Nat.add_pos_left (Nat.two_pow_pos _) _
    rw [Multiset.map_coe, Multiset.sum_coe, hdouble] at hle
    cases hlevels : t.levels with
    | zero =>
      rw [hlevels, pow_zero] at hle
      omega
    | succ n =>
      rw [hlevels, pow_succ] at hle
      exact Nat.succ_le_succ (Nat.clog_le_of_le_pow (by omega))

theorem height_of_least_three : height_of [3, 0, 0] = .ok 2 ∧
    ∃ root, min_depth_tree (List.replicate 3 (.TreeNode 0 0 .NoNode .NoNode)) = some (.ok root) ∧
      root.levels = 3 := by
  have hweight : Nat.clog 2 (weight [3, 0, 0]) = 2 := by decide
  obtain ⟨hheight, htree⟩ := height_of_least [3, 0, 0] (by decide) (by decide)
  rw [hweight] at hheight htree
  obtain ⟨⟨root, hroot, -, hlevels⟩, -⟩ := htree (List.replicate 3 (.TreeNode 0 0 .NoNode .NoNode))
    (by simp) (by simp [Tree.Marked, Tree.height, Tree.levels]) (by decide)
  exact ⟨hheight, root, hroot, hlevels⟩

theorem no_least_height : height_of [max_int, max_int] = .error (.heap .Invalid_argument) ∧
    1 < Nat.clog 2 (weight [max_int, max_int]) ∧
    height_of [0] = .ok 0 ∧ min_depth_tree [] = some (.error (.heap .EmptyHeap)) := by
  refine ⟨?_, ?_, ?_, rfl⟩
  · simp [height_of, heightLoop, max_int, add, Int.bmod]
  · decide
  · simp [height_of, heightLoop]

end Emulab.Dre
