import Emulab.Dre.Heap
import Emulab.Lib.Machine

/-! # Runs of the heap

  A removal is safe if the element that takes the free place is not below
  the parent of this place. All that a heap promises holds as long as the
  removals are safe, and an unsafe one breaks the order.
-/

namespace Emulab.Dre

open Machine Option

variable {α : Type}

/-! ## Section 1: The calls -/

inductive Call (α : Type) where
  | insert (key : Int) (value : α)
  | insert_remove (key : Int) (value : α)
  | extract_min
  /-- A function that `insert_remove` has returned. -/
  | remove (d : Ref)
  /-- A function that `insert` has returned. -/
  | update (d : Ref) (weight : Int)

/-- A heap with the elements that have been inserted and not yet removed, and their latest weights. -/
structure State (α : Type) where
  heap : Heap α
  held : Ref → Option (Int × α)

def start (default : α) : State α := ⟨Heap.make_heap default, fun _ => none⟩

/-- The state with a heap from which the element has been taken. An exception leaves all as it is: it
    is raised before anything has been changed. -/
def State.taken (s : State α) (d : Ref) : Except Exn (Heap α) → State α
  | .ok h => ⟨h, Function.update s.held d none⟩
  | .error _ => s

/-- `none` if an element is not there any more, or its weight would not be lowered. -/
def step (s : State α) : Call α → Option (State α)
  | .insert key value | .insert_remove key value =>
    match s.heap.insert_obj key value with
    | .ok (d, h) => some ⟨h, Function.update s.held d (some (key, value))⟩
    | .error _ => none
  | .extract_min => some (s.taken (s.heap.arr 0) s.heap.extract_min)
  | .remove d => (s.held d).map fun _ => s.taken d (s.heap.extract_element d)
  | .update d weight =>
    match s.held d with
    | none => none
    | some (key, value) =>
      if weight ≤ key then
        match s.heap.update_weight d weight with
        | .ok h => some ⟨h, Function.update s.held d (some (weight, value))⟩
        | .error _ => none
      else none

/-! ## Section 2: What a heap promises -/

/-- The heap keeps all of its promises. -/
structure Good (s : State α) : Prop where
  ordered : BinaryHeap.Ordered s.heap.len s.heap.keyAt
  loc : ∀ i < s.heap.len, (s.heap.data (s.heap.arr i)).loc = i
  made : ∀ i < s.heap.len, s.heap.arr i < s.heap.next
  held : ∀ d k v, s.held d = some (k, v) ↔ s.heap.Member d ∧ (s.heap.data d).key = k ∧ (s.heap.data d).value = v
  min : (s.heap.min = .error .EmptyHeap ∧ ∀ d, s.held d = none) ∨
    ∃ d k v, s.heap.min = .ok (k, v) ∧ s.held d = some (k, v) ∧ ∀ d' k' v', s.held d' = some (k', v') → k ≤ k'
  /-- The next call does not raise an exception, unless there is nothing to extract. -/
  insert : ∀ key value, ∃ r, s.heap.insert_obj key value = .ok r
  update : ∀ d k v weight, s.held d = some (k, v) → weight ≤ k → ∃ h, s.heap.update_weight d weight = .ok h
  remove : ∀ d, (s.held d).isSome → ∃ h, s.heap.extract_element d = .ok h
  extract_min : (∃ d, (s.held d).isSome) → ∃ h, s.heap.extract_min = .ok h

/-- A removal is safe if the last element is not below the parent of the place that gets free. -/
def Safe (s : State α) : Call α → Prop
  | .remove d => (s.held d).isSome → s.heap.Replaceable (s.heap.data d).loc
  | _ => True

/-! ## Section 3: Safe removals -/

theorem Heap.Sound.place {s : State α} (hs : s.heap.Sound s.held) {d : Ref} (hd : (s.held d).isSome) :
    s.heap.arr (s.heap.data d).loc = d ∧ (s.heap.data d).loc < s.heap.len :=
  hs.linked.arr_loc ((hs.member_iff d).mpr hd)

theorem Heap.Sound.extract_ok {s : State α} (hs : s.heap.Sound s.held) {i : Nat}
    (hi : i < s.heap.len) : ∃ h, s.heap.extract i = .ok h := by
  by_cases hok : s.heap.Replaceable i
  · obtain ⟨h, hrun, -⟩ := Heap.extract_sound hs hi hok
    exact ⟨h, hrun⟩
  · obtain ⟨h, hrun, -⟩ := Heap.extract_unordered hs hi hok
    exact ⟨h, hrun⟩

theorem good_iff {s : State α} : Good s ↔ s.heap.Sound s.held := by
  constructor
  · exact fun h => ⟨⟨h.loc, h.made⟩, h.ordered, h.held⟩
  · intro hs
    refine ⟨hs.ordered, hs.linked.loc, hs.linked.made, hs.held, ?_, fun key value => ?_,
      fun d k v weight hd hle => ?_, fun d hd => ?_, fun hsome => ?_⟩
    · rcases Nat.eq_zero_or_pos s.heap.len with hlen | hlen
      · exact Or.inl ⟨if_pos hlen, hs.empty hlen⟩
      · obtain ⟨hmin, hleast⟩ := hs.min hlen
        exact Or.inr ⟨s.heap.arr 0, _, _, hmin, hs.held_arr hlen, hleast⟩
    · obtain ⟨d, h, hrun, -⟩ := hs.insert_obj key value
      exact ⟨(d, h), hrun⟩
    · obtain ⟨h, hrun, -⟩ := hs.update_weight hd hle
      exact ⟨h, hrun⟩
    · exact hs.extract_ok (hs.place hd).2
    · obtain ⟨d, hd⟩ := hsome
      have hlen := (hs.place hd).2
      exact hs.extract_ok (i := 0) (by omega)

/-- **Step lemma.** All calls but an unsafe removal keep the heap good. -/
theorem step_good_iff {s s' : State α} {call : Call α} (hgood : Good s) (hstep : step s call = some s') :
    Good s' ↔ Safe s call := by
  have hs := good_iff.mp hgood
  rw [good_iff]
  have hinsert : ∀ key value, (match s.heap.insert_obj key value with
      | .ok (d, h) => some (⟨h, Function.update s.held d (some (key, value))⟩ : State α)
      | .error _ => none) = some s' → s'.heap.Sound s'.held := by
    intro key value hstep
    obtain ⟨d, h, hrun, -, hsound⟩ := hs.insert_obj key value
    rw [hrun] at hstep
    exact some.inj hstep ▸ hsound
  cases call with
  | insert key value => exact iff_of_true (hinsert key value hstep) trivial
  | insert_remove key value => exact iff_of_true (hinsert key value hstep) trivial
  | extract_min =>
    refine iff_of_true ?_ trivial
    rw [step, Option.some.injEq] at hstep
    subst hstep
    rcases Nat.eq_zero_or_pos s.heap.len with hlen | hlen
    · -- there is nothing to extract
      have hraise : s.heap.extract_min = .error .BadIndex := by
        simp [Heap.extract_min, Heap.extract, hlen]
      rw [hraise]
      exact hs
    · obtain ⟨h, hrun, hsound⟩ := hs.extract_min hlen
      rw [hrun]
      exact hsound
  | remove d =>
    rw [step, map_eq_some_iff] at hstep
    obtain ⟨kv, hd, rfl⟩ := hstep
    have hsome : (s.held d).isSome := by rw [hd]; rfl
    obtain ⟨harr, hloc⟩ := hs.place hsome
    unfold Heap.extract_element
    by_cases hok : s.heap.Replaceable (s.heap.data d).loc
    · obtain ⟨h, hrun, hsound⟩ := Heap.extract_sound hs hloc hok
      rw [hrun]
      rw [harr] at hsound
      exact iff_of_true hsound fun _ => hok
    · obtain ⟨h, hrun, hnot⟩ := Heap.extract_unordered hs hloc hok
      rw [hrun]
      exact iff_of_false (fun hsound => hnot hsound.ordered) fun hsafe => hok (hsafe hsome)
  | update d weight =>
    refine iff_of_true ?_ trivial
    rw [step] at hstep
    split at hstep
    · cases hstep
    · next key value hd =>
      split at hstep
      · next hle =>
        obtain ⟨h, hrun, hsound⟩ := hs.update_weight hd hle
        rw [hrun] at hstep
        exact some.inj hstep ▸ hsound
      · cases hstep

/-- **Main result.** In a run all heaps are good exactly if all removals are safe. -/
theorem heap_good_iff (default : α) (calls : List (Call α)) :
    (∀ pre s, pre <+: calls → run step (start default) pre = some s → Good s) ↔
      Meets step Safe (start default) calls := by
  refine prefix_iff_meets (fun _ => True) Good (fun _ _ _ _ _ => trivial)
    (fun s call s' _ hgood hstep => step_good_iff hgood hstep) (fun s call _ hnone => ?_) trivial
    (good_iff.mpr (Heap.sound_make_heap default)) calls
  cases call with
  | remove d =>
    intro hsome
    rw [step, map_eq_none_iff] at hnone
    rw [hnone] at hsome
    cases hsome
  | insert key value => trivial
  | insert_remove key value => trivial
  | extract_min => trivial
  | update d weight => trivial

/-- Six elements with the keys 1, 10, 2, 11, 12, 3, and the removal of the fourth. -/
def fourthRemoved : List (Call Unit) :=
  [.insert_remove 1 (), .insert_remove 10 (), .insert_remove 2 (), .insert_remove 11 (),
    .insert_remove 12 (), .insert_remove 3 (), .remove 6]

/-- The last element, 3, ends up below 10. -/
theorem heap_out_of_order : ∃ s, run step (start ()) fourthRemoved = some s ∧
    (List.range s.heap.len).map s.heap.keyAt = [1, 10, 2, 3, 12] ∧
    ¬ BinaryHeap.Ordered s.heap.len s.heap.keyAt := by
  have hrun : (run step (start ()) fourthRemoved).map
      (fun s => (s.heap.len, (List.range s.heap.len).map s.heap.keyAt)) =
      some (5, [1, 10, 2, 3, 12]) := by decide +kernel
  obtain ⟨s, hs, hkeys⟩ := map_eq_some_iff.mp hrun
  obtain ⟨hlen, hkeys⟩ := Prod.mk.inj hkeys
  refine ⟨s, hs, hkeys, fun hord => ?_⟩
  have horder := hord 3 (by decide) (by omega)
  rw [hlen] at hkeys
  have hparent : s.heap.keyAt 1 = 10 := some.inj (congrArg (fun l => l[1]?) hkeys)
  have hmoved : s.heap.keyAt 3 = 3 := some.inj (congrArg (fun l => l[3]?) hkeys)
  change s.heap.keyAt 1 ≤ s.heap.keyAt 3 at horder
  omega

end Emulab.Dre
