import Emulab.Assign.Vclass
import Emulab.Lib.Machine

/-! # The score of a vclass, over all histories

  A vclass costs nothing as long as all of its nodes are assigned as one type,
  and its weight if they are not. `assign_node` and `unassign_node` report by
  how much the score has changed.

  The members are in a hash map. `unassign_node` goes through it to find the
  score, in an order that may be another one at every call.
-/

namespace Emulab.Assign

open Machine List Option
open Tally (keys)

/-! ## Section 1: A class and its callers -/

/-- The order in which a hash map is iterated over. -/
structure HashOrder where
  order : List (String × Int) → List (String × Int)
  perm : ∀ l, (order l).Perm l

/-- The order in which the members of this model are listed. -/
def HashOrder.listed : HashOrder := ⟨id, fun l => .refl l⟩

/-- `tb_vclass::tb_vclass`. -/
def Vclass.new {R : Type} [Double R] (weight : R) : Vclass R :=
  { members := [], weight := weight, score := 0, dominant := "" }

def Vclass.addType {R : Type} (c : Vclass R) (type : String) : Vclass R :=
  let members := (touch c.members type).map fun m => if m.1 = type then (m.1, 0) else m
  { c with
    members := members
    dominant := if c.dominant = "" ∨ memberCount members c.dominant = 0 then type else c.dominant }

/-- A call. The order is that of the members during the call. -/
inductive VclassCall where
  | assignNode (type : String)
  | unassignNode (type : String) (order : HashOrder)

/-- A class, with what its callers know of it. -/
structure VclassHistory where
  vclass : Vclass ℚ
  assigned : List String
  /-- The sum of the changes that have been returned. -/
  total : ℚ

namespace VclassHistory

/-- A class with its types, before the first call. -/
def start (weight : ℚ) (types : List String) : VclassHistory :=
  { vclass := types.foldl Vclass.addType (Vclass.new weight), assigned := [], total := 0 }

def assign (h : VclassHistory) (type : String) : VclassHistory :=
  let (delta, vclass) := h.vclass.assignNode type
  { vclass := vclass, assigned := type :: h.assigned, total := h.total + delta }

def unassign (h : VclassHistory) (type : String) (order : HashOrder) : VclassHistory :=
  let (delta, vclass) :=
    ({ h.vclass with members := order.order h.vclass.members } : Vclass ℚ).unassignNode type
  { vclass := vclass, assigned := h.assigned.erase type, total := h.total + delta }

/-- One call. A type is not unassigned more often than it has been assigned. -/
def step (h : VclassHistory) : VclassCall → Option VclassHistory
  | .assignNode type => some (h.assign type)
  | .unassignNode type order => if type ∈ h.assigned then some (h.unassign type order) else none

end VclassHistory

/-- All nodes have one type. -/
def Uniform (assigned : List String) : Prop := ∀ a ∈ assigned, ∀ b ∈ assigned, a = b

instance (assigned : List String) : Decidable (Uniform assigned) :=
  inferInstanceAs (Decidable (∀ a ∈ assigned, ∀ b ∈ assigned, a = b))

/-- What the score of a class should be. -/
structure VclassHistory.Scored (h : VclassHistory) : Prop where
  score : h.vclass.score = if Uniform h.assigned then 0 else h.vclass.weight
  dominant : ∀ type, h.assigned.count type ≤ h.assigned.count h.vclass.dominant
  total : h.total = h.vclass.score

/-! ## Section 2: The scan of the members -/

/-- The first of the types that there are nodes of does not have the largest count. -/
def FirstNotLargest (members : List (String × Int)) : Prop :=
  ∃ first ∈ members.find? fun m => decide (0 < m.2), ∃ m ∈ members, first.2 < m.2

instance (members : List (String × Int)) : Decidable (FirstNotLargest members) :=
  inferInstanceAs (Decidable (∃ first ∈ members.find? fun m => decide (0 < m.2), ∃ m ∈ members, first.2 < m.2))

/-- When there is a maximum the score is set by a larger count. -/
theorem foldl_scan_of_pos (weight : ℚ) (members : List (String × Int)) (scan : VclassScan ℚ)
    (hpos : 0 < scan.curmax) :
    (members.foldl (vclassScanStep weight) scan).newScore =
      if ∃ m ∈ members, scan.curmax < m.2 then weight else scan.newScore := by
  induction members generalizing scan with
  | nil => simp
  | cons m members ih =>
    rw [foldl_cons]
    by_cases hm : scan.curmax < m.2
    · have hstep : vclassScanStep weight scan m = ⟨weight, m.2, m.1⟩ := by
        unfold vclassScanStep
        rw [if_pos hm, if_pos (by omega)]
      have hset : ∃ m' ∈ m :: members, scan.curmax < m'.2 := ⟨m, mem_cons_self, hm⟩
      rw [hstep, ih _ (by dsimp only; omega), if_pos hset]
      exact ite_self weight
    · have hstep : vclassScanStep weight scan m = scan := if_neg hm
      rw [hstep, ih scan hpos]
      simp only [exists_mem_cons_iff, hm, false_or]

/-- The scan notices a mix if the first type that has nodes is not the one with the most. -/
theorem foldl_scan_newScore (weight : ℚ) (members : List (String × Int)) (dominant : String) :
    (members.foldl (vclassScanStep weight) ⟨0, 0, dominant⟩).newScore =
      if FirstNotLargest members then weight else 0 := by
  induction members with
  | nil => simp [FirstNotLargest]
  | cons m members ih =>
    rw [foldl_cons]
    by_cases hm : 0 < m.2
    · have hstep : vclassScanStep weight ⟨0, 0, dominant⟩ m = ⟨0, m.2, m.1⟩ := by
        simp [vclassScanStep, hm]
      have hfirst : FirstNotLargest (m :: members) ↔ ∃ m' ∈ members, m.2 < m'.2 := by
        unfold FirstNotLargest
        rw [List.find?_cons_of_pos (by simpa using hm)]
        simp
      rw [hstep, foldl_scan_of_pos weight members _ hm]
      simp only [hfirst]
    · have hstep : vclassScanStep weight ⟨0, 0, dominant⟩ m = ⟨0, 0, dominant⟩ := by
        simp [vclassScanStep, hm]
      have hsame : FirstNotLargest (m :: members) ↔ FirstNotLargest members := by
        unfold FirstNotLargest
        rw [List.find?_cons_of_neg (by simpa using hm)]
        constructor
        · intro h
          obtain ⟨first, hfirst, m', hm', hlt⟩ := h
          have hpos : 0 < first.2 := by simpa using List.find?_some hfirst
          rcases mem_cons.mp hm' with rfl | hm'
          · omega
          · exact ⟨first, hfirst, m', hm', hlt⟩
        · intro h
          obtain ⟨first, hfirst, m', hm', hlt⟩ := h
          exact ⟨first, hfirst, m', mem_cons_of_mem _ hm', hlt⟩
      rw [hstep, ih]
      simp only [hsame]

/-- The scan ends with a largest count, or with none if there are no nodes. -/
theorem foldl_scan_dominant (weight : ℚ) (members : List (String × Int)) (scan : VclassScan ℚ) :
    let found := members.foldl (vclassScanStep weight) scan
    (∀ m ∈ members, m.2 ≤ found.curmax) ∧ scan.curmax ≤ found.curmax ∧ ((found.dominant, found.curmax) ∈ members ∨
        found.dominant = scan.dominant ∧ found.curmax = scan.curmax) := by
  induction members generalizing scan with
  | nil => exact ⟨fun m hm => absurd hm not_mem_nil, le_rfl, Or.inr ⟨rfl, rfl⟩⟩
  | cons m members ih =>
    rw [foldl_cons]
    obtain ⟨hall, hle, hfound⟩ := ih (vclassScanStep weight scan m)
    generalize members.foldl (vclassScanStep weight) (vclassScanStep weight scan m) = found at *
    by_cases hm : scan.curmax < m.2
    · have hmax : (vclassScanStep weight scan m).curmax = m.2 := by
        unfold vclassScanStep
        rw [if_pos hm]
      have hdom : (vclassScanStep weight scan m).dominant = m.1 := by
        unfold vclassScanStep
        rw [if_pos hm]
      rw [hmax] at hle
      refine ⟨?_, by omega, Or.inl ?_⟩
      · intro m' hm'
        rcases mem_cons.mp hm' with rfl | hm'
        · exact hle
        · exact hall m' hm'
      · rcases hfound with hmem | ⟨hd, hc⟩
        · exact mem_cons_of_mem _ hmem
        · rw [hd, hc, hmax, hdom]
          exact mem_cons_self
    · have hstep : vclassScanStep weight scan m = scan := if_neg hm
      rw [hstep] at hle hfound
      refine ⟨?_, hle, hfound.imp_left (mem_cons_of_mem _)⟩
      intro m' hm'
      rcases mem_cons.mp hm' with rfl | hm'
      · omega
      · exact hall m' hm'

/-! ## Section 3: One call -/

namespace VclassHistory

theorem step_unassignNode (h : VclassHistory) (type : String) (order : HashOrder) :
    h.step (.unassignNode type order) = if type ∈ h.assigned then some (h.unassign type order) else none := rfl

/-- The invariant: all of what the score of a class should be, but for the score. -/
structure Inv (h : VclassHistory) : Prop where
  nodup : (keys h.vclass.members).Nodup
  count : ∀ type, h.vclass.count type = (h.assigned.count type : Int)
  dominant : ∀ type, h.assigned.count type ≤ h.assigned.count h.vclass.dominant
  total : h.total = h.vclass.score

variable {h : VclassHistory} {type : String}

theorem Inv.count_dominant_pos (hinv : h.Inv) (hmem : type ∈ h.assigned) : h.vclass.dominant ∈ h.assigned := by
  have hpos := count_pos_iff.mpr hmem
  have hle := hinv.dominant type
  exact count_pos_iff.mp (by omega)

theorem Inv.assign (hinv : h.Inv) (type : String) : (h.assign type).Inv where
  nodup := Vclass.nodup_assignNode hinv.nodup type
  count type' := by
    dsimp only [VclassHistory.assign]
    rw [Vclass.count_assignNode, hinv.count, count_cons]
    by_cases heq : type' = type
    · simp [heq]
    · simp [heq, Ne.symm heq]
  dominant type' := by
    dsimp only [VclassHistory.assign]
    have hmax := hinv.dominant type'
    rw [Vclass.dominant_assignNode, hinv.count, hinv.count]
    by_cases hnew : type ≠ h.vclass.dominant ∧
        (h.assigned.count h.vclass.dominant : Int) < h.assigned.count type + 1
    · -- the type has passed the dominant one
      rw [if_pos hnew, count_cons, count_cons_self]
      split <;> omega
    · rw [if_neg hnew]
      by_cases heq : type = h.vclass.dominant
      · rw [← heq, count_cons_self, count_cons]
        rw [← heq] at hmax
        split <;> omega
      · have hle : ¬(h.assigned.count h.vclass.dominant : Int) < h.assigned.count type + 1 :=
          fun hlt => hnew ⟨heq, hlt⟩
        rw [count_cons_of_ne heq, count_cons]
        split
        · rename_i hsame
          rw [beq_iff_eq] at hsame
          rw [← hsame]
          omega
        · exact hmax
  total := by
    dsimp only [VclassHistory.assign]
    rw [Vclass.delta_assignNode, hinv.total]
    ring

/-- What an `unassign_node` goes through: the members in the order of the map, one node less. -/
def left (h : VclassHistory) (type : String) (order : HashOrder) : List (String × Int) :=
  bump (order.order h.vclass.members) type (-1)

theorem Inv.nodup_left (hinv : h.Inv) (type : String) (order : HashOrder) : (keys (h.left type order)).Nodup :=
  nodup_bump (((order.perm _).map Prod.fst).nodup_iff.mpr hinv.nodup) type (-1)

theorem Inv.count_left (hinv : h.Inv) (hmem : type ∈ h.assigned) (order : HashOrder) (type' : String) :
    memberCount (h.left type order) type' = ((h.assigned.erase type).count type' : Int) := by
  have hcount := hinv.count type'
  unfold Vclass.count at hcount
  unfold left
  rw [memberCount_bump, memberCount_eq, Tally.count_perm (order.perm _) hinv.nodup,
    ← memberCount_eq, hcount, count_erase]
  have hpos := count_pos_iff.mpr hmem
  by_cases heq : type' = type
  · subst heq
    simp only [if_pos, beq_self_eq_true]
    omega
  · have hne : (type == type') = false := by simpa [beq_eq_false_iff_ne] using Ne.symm heq
    simp [heq, hne]

theorem Inv.mem_left (hinv : h.Inv)
    (hmem : type ∈ h.assigned) (order : HashOrder) (m : String × Int) (hpos : 0 < m.2) :
    m ∈ h.left type order ↔ ((h.assigned.erase type).count m.1 : Int) = m.2 := by
  have hcount := hinv.count_left hmem order m.1
  constructor
  · intro hm
    rw [← hcount, memberCount_eq, Tally.count_of_mem (hinv.nodup_left type order) hm]
  · intro heq
    rw [← hcount] at heq
    by_contra hnot
    by_cases hkey : m.1 ∈ keys (h.left type order)
    · obtain ⟨m', hm', hname⟩ := mem_map.mp hkey
      have hval := Tally.count_of_mem (hinv.nodup_left type order) hm'
      rw [hname, ← memberCount_eq, heq] at hval
      exact hnot (Prod.ext hname hval.symm ▸ hm')
    · rw [memberCount_eq, Tally.count_of_not_mem hkey] at heq
      omega

theorem Inv.unassign (hinv : h.Inv)
    (hmem : type ∈ h.assigned) (order : HashOrder) : (h.unassign type order).Inv where
  nodup := hinv.nodup_left type order
  count type' := hinv.count_left hmem order type'
  dominant type' := by
    obtain ⟨hall, hpos, hfound⟩ := foldl_scan_dominant h.vclass.weight (h.left type order)
      ⟨0, 0, h.vclass.dominant⟩
    dsimp only at hpos
    show (h.assigned.erase type).count type' ≤ (h.assigned.erase type).count
      ((h.left type order).foldl (vclassScanStep h.vclass.weight) ⟨0, 0, h.vclass.dominant⟩).dominant
    generalize (h.left type order).foldl (vclassScanStep h.vclass.weight) ⟨0, 0, h.vclass.dominant⟩ = found at *
    -- no type has more nodes than the scan has found
    have hmax : ((h.assigned.erase type).count type' : Int) ≤ found.curmax := by
      by_cases hzero : (h.assigned.erase type).count type' = 0
      · omega
      · have hin := (hinv.mem_left hmem order (type', ((h.assigned.erase type).count type' : Int))
          (by dsimp only; omega)).mpr rfl
        exact hall _ hin
    by_cases hnone : found.curmax = 0
    · omega
    · have hin : (found.dominant, found.curmax) ∈ h.left type order :=
        hfound.resolve_right fun hsame => hnone hsame.2
      have hcount := (hinv.mem_left hmem order _ (by dsimp only; omega)).mp hin
      dsimp only at hcount
      omega
  total := by
    dsimp only [VclassHistory.unassign, Vclass.unassignNode]
    rw [hinv.total]
    ring

theorem Inv.step {h h' : VclassHistory} (hinv : h.Inv) {call : VclassCall}
    (hstep : h.step call = some h') : h'.Inv := by
  cases call with
  | assignNode type =>
    obtain rfl := some.inj hstep
    exact hinv.assign type
  | unassignNode type order =>
    rw [step_unassignNode] at hstep
    split at hstep
    · rename_i hmem
      obtain rfl := some.inj hstep
      exact hinv.unassign hmem order
    · cases hstep

/-- What a call has to meet: if the nodes that are left do not have one type, `unassign_node` does
    not come to a type with the most nodes first. -/
def MixNoticed (h : VclassHistory) : VclassCall → Prop
  | .assignNode _ => True
  | .unassignNode type order => type ∈ h.assigned →
      h.vclass.weight = 0 ∨ Uniform (h.assigned.erase type) ∨ FirstNotLargest (h.left type order)

theorem Inv.not_firstNotLargest (hinv : h.Inv)
    (hmem : type ∈ h.assigned) (order : HashOrder) (huniform : Uniform (h.assigned.erase type)) :
    ¬FirstNotLargest (h.left type order) := by
  intro hfirst
  obtain ⟨first, hfirst, m, hm, hlt⟩ := hfirst
  have hpos : 0 < first.2 := by simpa using List.find?_some hfirst
  have hcount := (hinv.mem_left hmem order first hpos).mp (mem_of_find?_eq_some hfirst)
  have hcount' := (hinv.mem_left hmem order m (by omega)).mp hm
  have hin : first.1 ∈ h.assigned.erase type := count_pos_iff.mp (by omega)
  have hin' : m.1 ∈ h.assigned.erase type := count_pos_iff.mp (by omega)
  rw [huniform _ hin _ hin'] at hcount
  omega

/-- **Step lemma.** From a right score, a call leads to a right score exactly if a mix is noticed. -/
theorem Inv.scored_iff {h h' : VclassHistory} (hinv : h.Inv) (hscored : h.Scored)
    {call : VclassCall} (hstep : h.step call = some h') : h'.Scored ↔ h.MixNoticed call := by
  have hinv' := hinv.step hstep
  have hiff : h'.Scored ↔ h'.vclass.score = if Uniform h'.assigned then 0 else h'.vclass.weight :=
    ⟨fun hs => hs.score, fun hs => ⟨hs, hinv'.dominant, hinv'.total⟩⟩
  rw [hiff]
  cases call with
  | assignNode type =>
    obtain rfl := some.inj hstep
    dsimp only [VclassHistory.assign]
    rw [Vclass.score_assignNode, Vclass.weight_assignNode, hinv.count, hscored.score]
    refine iff_of_true ?_ trivial
    by_cases hnone : h.assigned = []
    · simp [hnone, Uniform]
    · obtain ⟨type', htype'⟩ := exists_mem_of_ne_nil _ hnone
      have hdom := hinv.count_dominant_pos htype'
      have hcount : (h.assigned.count h.vclass.dominant : Int) ≠ 0 := by
        have := count_pos_iff.mpr hdom
        omega
      by_cases heq : type = h.vclass.dominant
      · have hsame : Uniform (type :: h.assigned) ↔ Uniform h.assigned := by
          rw [← heq] at hdom
          constructor
          · exact fun hu a ha b hb => hu a (mem_cons_of_mem _ ha) b (mem_cons_of_mem _ hb)
          · intro hu a ha b hb
            have hto : ∀ c ∈ type :: h.assigned, c ∈ h.assigned := by
              intro c hc
              rcases mem_cons.mp hc with rfl | hc
              · exact hdom
              · exact hc
            exact hu a (hto a ha) b (hto b hb)
        simp only [heq, ne_eq, not_true_eq_false, false_and, if_false]
        rw [← heq]
        simp only [hsame]
      · have hmix : ¬Uniform (type :: h.assigned) := fun hu =>
          heq (hu _ mem_cons_self _ (mem_cons_of_mem _ hdom))
        rw [if_pos ⟨heq, hcount⟩]
        exact (if_neg hmix).symm
  | unassignNode type order =>
    rw [step_unassignNode] at hstep
    split at hstep
    · rename_i hmem
      obtain rfl := some.inj hstep
      have hscore : ((h.left type order).foldl (vclassScanStep h.vclass.weight)
          ⟨0, 0, h.vclass.dominant⟩).newScore =
          if FirstNotLargest (h.left type order) then h.vclass.weight else 0 :=
        foldl_scan_newScore _ _ _
      show ((h.left type order).foldl (vclassScanStep h.vclass.weight) ⟨0, 0, h.vclass.dominant⟩).newScore =
          (if Uniform (h.assigned.erase type) then 0 else h.vclass.weight) ↔ _
      rw [hscore]
      by_cases huniform : Uniform (h.assigned.erase type)
      · rw [if_neg (hinv.not_firstNotLargest hmem order huniform), if_pos huniform]
        exact iff_of_true rfl fun _ => Or.inr (Or.inl huniform)
      · rw [if_neg huniform]
        by_cases hfirst : FirstNotLargest (h.left type order)
        · rw [if_pos hfirst]
          exact iff_of_true rfl fun _ => Or.inr (Or.inr hfirst)
        · rw [if_neg hfirst]
          constructor
          · exact fun hzero _ => Or.inl hzero.symm
          · intro hok
            rcases hok hmem with hzero | hu | hf
            · exact hzero.symm
            · exact absurd hu huniform
            · exact absurd hf hfirst
    · cases hstep

/-! ## Section 4: Every history -/

theorem Vclass.foldl_addType (weight : ℚ) (types : List String) :
    let c := types.foldl Vclass.addType (Vclass.new weight)
    (keys c.members).Nodup ∧ (∀ m ∈ c.members, m.2 = 0) ∧ c.score = 0 ∧ c.weight = weight := by
  have hstep : ∀ (types : List String) (c : Vclass ℚ), (keys c.members).Nodup → (∀ m ∈ c.members, m.2 = 0) →
      let c' := types.foldl Vclass.addType c
      (keys c'.members).Nodup ∧ (∀ m ∈ c'.members, m.2 = 0) ∧ c'.score = c.score ∧ c'.weight = c.weight := by
    intro types
    induction types with
    | nil => exact fun c hnodup hzero => ⟨hnodup, hzero, rfl, rfl⟩
    | cons type types ih =>
      intro c hnodup hzero
      apply ih (c.addType type)
      · unfold Vclass.addType
        rw [keys_map _ fun _ => 0]
        exact nodup_touch hnodup type
      · intro m hm
        obtain ⟨m', hm', rfl⟩ := mem_map.mp hm
        split
        · rfl
        · unfold touch at hm'
          split at hm'
          · exact hzero m' hm'
          · rcases mem_append.mp hm' with hm' | hm'
            · exact hzero m' hm'
            · rw [mem_singleton.mp hm']
  exact hstep types (Vclass.new weight) nodup_nil fun m hm =>
    absurd hm not_mem_nil

theorem inv_start (weight : ℚ) (types : List String) : (start weight types).Inv := by
  obtain ⟨hnodup, hzero, hscore, -⟩ := Vclass.foldl_addType weight types
  refine ⟨hnodup, ?_, fun _ => le_rfl, hscore.symm⟩
  intro type
  show memberCount _ type = 0
  by_cases hmem : type ∈ keys (start weight types).vclass.members
  · obtain ⟨m, hm, rfl⟩ := mem_map.mp hmem
    exact (Tally.count_of_mem hnodup hm).trans (hzero m hm)
  · exact Tally.count_of_not_mem hmem

/-- In every run of calls, whatever orders the members are iterated over in, the score of the class
    is right in all states exactly if every `unassign_node` that leaves nodes of several types does
    not come to a type with the most nodes first. The dominant type is always one with the most
    nodes, and the changes that are returned always add up to the score. -/
theorem vclass_scored_iff (weight : ℚ) (types : List String) (calls : List VclassCall) :
    (∀ pre h, pre <+: calls → run step (start weight types) pre = some h → h.Scored) ↔
      Meets step MixNoticed (start weight types) calls := by
  have hinv := inv_start weight types
  obtain ⟨-, -, hscore, -⟩ := Vclass.foldl_addType weight types
  have hscored : (start weight types).Scored := by
    refine ⟨?_, hinv.dominant, hinv.total⟩
    have hnil : Uniform (start weight types).assigned := fun a ha => absurd ha not_mem_nil
    rw [if_pos hnil]
    exact hscore
  refine prefix_iff_meets Inv Scored (fun _ _ _ h hstep => h.step hstep)
    (fun _ _ _ h hs hstep => h.scored_iff hs hstep) ?_ hinv hscored calls
  intro h call _ hfail
  cases call with
  | assignNode type => cases hfail
  | unassignNode type order =>
    intro hmem
    rw [step_unassignNode, if_pos hmem] at hfail
    cases hfail

/-- Two nodes of one type and one of another, after a fourth one has been unassigned. -/
def mixed : List VclassCall :=
  [.assignNode "pc600", .assignNode "pc850", .assignNode "pc600", .assignNode "pc850",
    .unassignNode "pc850" .listed]

/-- The mix is not noticed, because the first type that is come to has the most nodes. -/
theorem mix_unnoticed : ∃ h, run step (start 1 ["pc600", "pc850"]) mixed = some h ∧
    h.assigned.Perm ["pc600", "pc850", "pc600"] ∧ h.vclass.weight = 1 ∧ h.vclass.score = 0 ∧
    ¬h.Scored := by
  refine ⟨_, rfl, by decide, by decide, by decide, ?_⟩
  intro hscored
  exact absurd hscored.score (by decide)

end VclassHistory

end Emulab.Assign
