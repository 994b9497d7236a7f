import Emulab.Assign.State
import Emulab.Lib.Tally

/-! # Virtual equivalence classes

  A `tb_vclass` monitors as what types the vnodes of it are used. The
  membership of nodes is not stored here, only how many there are of a type.
-/

namespace Emulab.Assign

open Tally (keys)

/-! ## Section 1: The map of members -/

/-- `members[type]` where it is read. -/
def memberCount (members : List (String × Int)) (type : String) : Int :=
  (members.lookup type).getD 0

/-- `members[type]` puts the type into the map if it is not there. -/
def touch (members : List (String × Int)) (type : String) : List (String × Int) :=
  if (members.lookup type).isSome then members else members ++ [(type, 0)]

/-- `members[type] += n` -/
def bump (members : List (String × Int)) (type : String) (n : Int) : List (String × Int) :=
  (touch members type).map fun m => if m.1 = type then (m.1, m.2 + n) else m

@[simp] theorem memberCount_nil (type : String) : memberCount [] type = 0 := rfl

theorem memberCount_eq (members : List (String × Int)) (type : String) :
    memberCount members type = Tally.count members type := rfl

theorem memberCount_cons (m : String × Int) (members : List (String × Int)) (type : String) :
    memberCount (m :: members) type = if m.1 = type then m.2 else memberCount members type :=
  Tally.count_cons m members type

@[simp] theorem memberCount_touch (members : List (String × Int)) (type type' : String) :
    memberCount (touch members type) type' = memberCount members type' := by
  unfold touch
  split
  · rfl
  · rename_i hnone
    induction members with
    | nil => simp [memberCount_cons]
    | cons m members ih =>
      rw [List.cons_append, memberCount_cons, memberCount_cons]
      by_cases h : m.1 = type'
      · simp [h]
      · have hrest : ¬(members.lookup type).isSome = true := by
          intro hsome
          apply hnone
          rw [List.lookup_cons]
          cases type == m.1 <;> simp [hsome]
        simp [h, ih hrest]

variable {members : List (String × Int)}

theorem memberCount_map_ne {type type' : String} {n : Int} (h : type' ≠ type) :
    memberCount (members.map fun m => if m.1 = type then (m.1, m.2 + n) else m) type' =
      memberCount members type' := by
  induction members with
  | nil => rfl
  | cons m members ih =>
    rw [List.map_cons, memberCount_cons, memberCount_cons, ih]
    by_cases hm : m.1 = type
    · simp [hm, Ne.symm h]
    · simp [hm]

theorem memberCount_map_self {type : String} {n : Int} (h : (members.lookup type).isSome = true) :
    memberCount (members.map fun m => if m.1 = type then (m.1, m.2 + n) else m) type =
      memberCount members type + n := by
  induction members with
  | nil => simp at h
  | cons m members ih =>
    rw [List.map_cons, memberCount_cons, memberCount_cons]
    by_cases hm : m.1 = type
    · simp [hm]
    · have hne : (type == m.1) = false := by simpa [beq_eq_false_iff_ne] using Ne.symm hm
      rw [List.lookup_cons, hne] at h
      simp [hm, ih h]

theorem lookup_touch (members : List (String × Int)) (type : String) :
    ((touch members type).lookup type).isSome = true := by
  unfold touch
  split
  · assumption
  · rename_i hnone
    induction members with
    | nil => simp
    | cons m members ih =>
      rw [List.lookup_cons] at hnone
      rw [List.cons_append, List.lookup_cons]
      cases htype : type == m.1 with
      | true => rfl
      | false =>
        rw [htype] at hnone
        exact ih hnone

theorem memberCount_bump (members : List (String × Int)) (type type' : String) (n : Int) :
    memberCount (bump members type n) type' = memberCount members type' + if type' = type then n else 0 := by
  unfold bump
  by_cases h : type' = type
  · subst h
    rw [memberCount_map_self (lookup_touch members type'), memberCount_touch, if_pos rfl]
  · rw [memberCount_map_ne h, memberCount_touch, if_neg h, Int.add_zero]

theorem keys_map (members : List (String × Int)) (f : String × Int → Int) (type : String) :
    keys (members.map fun m => if m.1 = type then (m.1, f m) else m) = keys members := by
  unfold keys
  rw [List.map_map]
  apply List.map_congr_left
  intro m _
  dsimp only [Function.comp]
  split <;> rfl

theorem nodup_touch (h : (keys members).Nodup) (type : String) : (keys (touch members type)).Nodup := by
  unfold touch
  split
  · exact h
  · rename_i hnone
    rw [keys, List.map_append, List.nodup_append]
    refine ⟨h, by simp, ?_⟩
    intro a ha b hb hab
    obtain ⟨m, hm, rfl⟩ := List.mem_map.mp ha
    rw [List.map_cons, List.map_nil, List.mem_singleton] at hb
    apply hnone
    rw [List.lookup_isSome_iff]
    refine ⟨m, hm, ?_⟩
    rw [beq_iff_eq, hab, hb]

theorem nodup_bump (h : (keys members).Nodup) (type : String) (n : Int) : (keys (bump members type n)).Nodup := by
  unfold bump
  rw [keys_map _ (fun m => m.2 + n)]
  exact nodup_touch h type

/-! ## Section 2: Assigning and unassigning -/

variable {R : Type} [Double R]

/-- `assign_node`: the change of the score, and the class. -/
def Vclass.assignNode (c : Vclass R) (type : String) : R × Vclass R :=
  let members := bump c.members type 1
  if type ≠ c.dominant then
    let members := touch members c.dominant
    let newScore := if memberCount members c.dominant ≠ 0 then c.weight else c.score
    let dominant := if memberCount members c.dominant < memberCount members type then type else c.dominant
    (newScore - c.score, { c with members := members, score := newScore, dominant := dominant })
  else
    (c.score - c.score, { c with members := members })

/-- What the loop of `unassign_node` keeps. -/
structure VclassScan (R : Type) where
  newScore : R
  curmax : Int
  dominant : String

/-- One turn of the loop of `unassign_node`. -/
def vclassScanStep (weight : R) (scan : VclassScan R) (m : String × Int) : VclassScan R :=
  if scan.curmax < m.2 then
    { newScore := if scan.curmax ≠ 0 then weight else scan.newScore
      curmax := m.2
      dominant := m.1 }
  else
    scan

/-- `unassign_node`: the change of the score, and the class. -/
def Vclass.unassignNode (c : Vclass R) (type : String) : R × Vclass R :=
  let members := bump c.members type (-1)
  let scan := members.foldl (vclassScanStep c.weight) ⟨0, 0, c.dominant⟩
  (scan.newScore - c.score, { c with members := members, score := scan.newScore, dominant := scan.dominant })

def Vclass.hasType (c : Vclass R) (type : String) : Bool := (c.members.lookup type).isSome

/-- `choose_type`, from what two calls of `RANDOM` return. -/
def Vclass.chooseType (c : Vclass R) (random₁ random₂ : Nat) : Except Fault String :=
  if random₁ % 2 = 0 then
    .ok c.dominant
  else
    match c.members[random₂ % c.members.length]? with
    | some m => .ok m.1
    | none => .error .undefined

/-- How many members of a type a class has. -/
def Vclass.count (c : Vclass R) (type : String) : Int := memberCount c.members type

theorem Vclass.count_assignNode (c : Vclass R) (type type' : String) :
    (c.assignNode type).2.count type' = c.count type' + if type' = type then 1 else 0 := by
  unfold Vclass.assignNode
  split
  · simp only [Vclass.count, memberCount_touch, memberCount_bump]
  · simp only [Vclass.count, memberCount_bump]

theorem Vclass.score_assignNode (c : Vclass R) (type : String) :
    (c.assignNode type).2.score = if type ≠ c.dominant ∧ c.count c.dominant ≠ 0 then c.weight else c.score := by
  unfold Vclass.assignNode
  split
  · rename_i hne
    simp [Vclass.count, memberCount_bump, Ne.symm hne, hne]
  · rename_i heq
    simp [not_not.mp heq]

theorem Vclass.dominant_assignNode (c : Vclass R) (type : String) : (c.assignNode type).2.dominant =
      if type ≠ c.dominant ∧ c.count c.dominant < c.count type + 1 then type else c.dominant := by
  unfold Vclass.assignNode
  split
  · rename_i hne
    simp [Vclass.count, memberCount_bump, Ne.symm hne, hne]
  · rename_i heq
    simp [not_not.mp heq]

theorem Vclass.weight_assignNode (c : Vclass R) (type : String) : (c.assignNode type).2.weight = c.weight := by
  unfold Vclass.assignNode
  split <;> rfl

theorem Vclass.delta_assignNode (c : Vclass R) (type : String) :
    (c.assignNode type).1 = (c.assignNode type).2.score - c.score := by
  unfold Vclass.assignNode
  split <;> rfl

theorem Vclass.nodup_assignNode {c : Vclass R} (h : (keys c.members).Nodup) (type : String) :
    (keys (c.assignNode type).2.members).Nodup := by
  unfold Vclass.assignNode
  split
  · exact nodup_touch (nodup_bump h type 1) _
  · exact nodup_bump h type 1

end Emulab.Assign
