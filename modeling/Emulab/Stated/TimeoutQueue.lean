import Mathlib.Tactic

/-! # The timeout queue

  An array of pairs that is sorted by timeouts, and an index from an object to
  its timeout. An insertion searches for the end of the pairs with the same
  timeout, a deletion for their start, both by halving.
-/

namespace Emulab.Stated

open Function

variable {Obj : Type} [DecidableEq Obj]

/-- `@q` and `%i` -/
structure Queue (Obj : Type) where
  q : List (Int × Obj)
  i : Obj → Option Int

/-- The comparison with `$first`: whether a pair belongs behind the place that is searched for. -/
def After (timeout : Int) (first : Bool) (val : Int) : Prop :=
  if first then timeout ≤ val else timeout < val

instance (timeout : Int) (first : Bool) (val : Int) : Decidable (After timeout first val) :=
  inferInstanceAs (Decidable (if first then _ else _))

/-- `qbinsearch`. Each call halves `$max - $min`, which is never more than `fuel`. -/
def qbinsearch (q : List (Int × Obj)) (timeout : Int) (first : Bool) : Nat → Nat → Nat → Nat
  | 0, min, _ => min
  | fuel + 1, min, max =>
    let len := max - min
    let mid := min + len / 2
    if len < 1 then mid
    else
      match q[mid]? with
      | none => mid
      | some (val, _) =>
        if After timeout first val then qbinsearch q timeout first fuel min mid
        else qbinsearch q timeout first fuel (mid + 1) max

def qsearch (q : List (Int × Obj)) (timeout : Int) (first : Bool) : Nat :=
  qbinsearch q timeout first q.length 0 q.length

namespace Queue

def qdelete (s : Queue Obj) (obj : Obj) : Queue Obj :=
  match s.i obj with
  | none => s
  | some timeout =>
    let n := qsearch s.q timeout true
    match (s.q.drop n).findIdx? (·.2 = obj) with
    | none => s
    | some k => ⟨s.q.eraseIdx (n + k), update s.i obj none⟩

def qinsert (s : Queue Obj) (timeout : Int) (obj : Obj) : Queue Obj :=
  let s := if (s.i obj).isSome then s.qdelete obj else s
  ⟨s.q.insertIdx (qsearch s.q timeout false) (timeout, obj), update s.i obj (some timeout)⟩

def qhead (s : Queue Obj) : Option (Int × Obj) := s.q.head?

def qpop (s : Queue Obj) : Queue Obj :=
  match s.q with
  | [] => s
  | (_, obj) :: q => ⟨q, update s.i obj none⟩

/-- Timeouts come in order, and the index has the timeout of each object. -/
structure Ok (s : Queue Obj) : Prop where
  sorted : s.q.Pairwise (·.1 ≤ ·.1)
  nodup : (s.q.map Prod.snd).Nodup
  index : ∀ obj timeout, s.i obj = some timeout ↔ (timeout, obj) ∈ s.q

end Queue

/-! ## The search -/

section

variable {q : List (Int × Obj)} {timeout : Int} {first : Bool}

theorem After.mono {val val' : Int} (h : After timeout first val) (hle : val ≤ val') :
    After timeout first val' := by
  cases first <;> simp only [After, Bool.false_eq_true, if_true, if_false] at h ⊢ <;> omega

/-- The place divides the queue. -/
structure Divides (q : List (Int × Obj)) (timeout : Int) (first : Bool) (k : Nat) : Prop where
  le : k ≤ q.length
  before : ∀ p ∈ q.take k, ¬After timeout first p.1
  after : ∀ p ∈ q.drop k, After timeout first p.1

omit [DecidableEq Obj] in
theorem divides_of_getElem? {k : Nat} (hle : k ≤ q.length)
    (hbefore : ∀ j < k, ∀ p, q[j]? = some p → ¬After timeout first p.1)
    (hafter : ∀ j ≥ k, ∀ p, q[j]? = some p → After timeout first p.1) : Divides q timeout first k where
  le := hle
  before p hp := by
    obtain ⟨j, hj⟩ := List.mem_iff_getElem?.mp hp
    rw [List.getElem?_take] at hj
    split at hj
    · exact hbefore j ‹_› p hj
    · cases hj
  after p hp := by
    obtain ⟨j, hj⟩ := List.mem_iff_getElem?.mp hp
    rw [List.getElem?_drop] at hj
    exact hafter _ (Nat.le_add_right _ _) p hj

omit [DecidableEq Obj] in
/-- The loop invariant of the halving: what is before `min` and what is from
    `max` on has been decided. -/
theorem qbinsearch_divides (hsorted : q.Pairwise (·.1 ≤ ·.1)) {fuel min max : Nat} (hfuel : max - min ≤ fuel)
    (hmin : min ≤ max) (hmax : max ≤ q.length)
    (hbefore : ∀ j < min, ∀ p, q[j]? = some p → ¬After timeout first p.1)
    (hafter : ∀ j ≥ max, ∀ p, q[j]? = some p → After timeout first p.1) :
    Divides q timeout first (qbinsearch q timeout first fuel min max) := by
  induction fuel generalizing min max with
  | zero =>
    obtain rfl : min = max := by omega
    exact divides_of_getElem? hmax hbefore hafter
  | succ fuel ih =>
    rw [qbinsearch]
    split
    · rename_i hlen
      obtain rfl : min = max := by omega
      rw [Nat.sub_self, Nat.zero_div, Nat.add_zero]
      exact divides_of_getElem? hmax hbefore hafter
    · rename_i hlen
      have hmid : min + (max - min) / 2 < q.length := by omega
      rw [List.getElem?_eq_getElem hmid]
      dsimp only
      -- pairs in order: the one in the middle decides for those on its side
      have hle : ∀ (j j' : Nat) (p p' : Int × Obj), j ≤ j' → q[j]? = some p → q[j']? = some p' → p.1 ≤ p'.1 := by
        intro j j' p p' hj hp hp'
        rcases Nat.lt_or_eq_of_le hj with hlt | rfl
        · obtain ⟨hb, rfl⟩ := List.getElem?_eq_some_iff.mp hp
          obtain ⟨hb', rfl⟩ := List.getElem?_eq_some_iff.mp hp'
          exact List.pairwise_iff_getElem.mp hsorted j j' hb hb' hlt
        · rw [hp] at hp'
          exact (Option.some.inj hp' ▸ le_rfl)
      split
      · rename_i hval
        have hfuel' : min + (max - min) / 2 - min ≤ fuel := by omega
        refine ih hfuel' (by omega) (by omega) hbefore fun j hj p hp => ?_
        exact After.mono hval (hle _ _ _ _ hj (List.getElem?_eq_getElem hmid) hp)
      · rename_i hval
        have hfuel' : max - (min + (max - min) / 2 + 1) ≤ fuel := by omega
        refine ih hfuel' (by omega) hmax (fun j hj p hp hafter' => hval ?_) hafter
        exact After.mono hafter' (hle _ _ _ _ (by omega) hp (List.getElem?_eq_getElem hmid))

omit [DecidableEq Obj] in
theorem qsearch_divides (hsorted : q.Pairwise (·.1 ≤ ·.1)) : Divides q timeout first (qsearch q timeout first) := by
  refine qbinsearch_divides hsorted (by omega) (by omega) le_rfl (by omega) fun j hj p hp => ?_
  rw [List.getElem?_eq_none hj] at hp
  cases hp

end

/-! ## The operations -/

namespace Queue

variable {s : Queue Obj} {obj : Obj} {timeout : Int}

omit [DecidableEq Obj] in
theorem Ok.eq_of_mem (h : s.Ok) {p p' : Int × Obj} (hp : p ∈ s.q) (hp' : p' ∈ s.q) (heq : p.2 = p'.2) : p = p' :=
  List.inj_on_of_nodup_map h.nodup hp hp' heq

omit [DecidableEq Obj] in
theorem insertIdx_eq (p : Int × Obj) {q : List (Int × Obj)} {k : Nat} (hle : k ≤ q.length) :
    q.insertIdx k p = q.take k ++ p :: q.drop k := by
  induction k generalizing q with
  | zero => rfl
  | succ k ih =>
    cases q with
    | nil => simp at hle
    | cons p' q => rw [List.insertIdx_succ_cons, ih (by simpa using hle)]; rfl

/-- `qdelete` finds the object from the start of its timeout on. -/
theorem Ok.qdelete_eq (h : s.Ok) {t : Int} (ht : s.i obj = some t) :
    ∃ k : Nat, s.q[k]? = some (t, obj) ∧ s.qdelete obj = ⟨s.q.eraseIdx k, update s.i obj none⟩ := by
  have hmem := (h.index obj t).mp ht
  have hdivides : Divides s.q t true (qsearch s.q t true) := qsearch_divides h.sorted
  have hdrop : (t, obj) ∈ s.q.drop (qsearch s.q t true) := by
    rw [← List.take_append_drop (qsearch s.q t true) s.q] at hmem
    rcases List.mem_append.mp hmem with hmem | hmem
    · exact absurd (show After t true t from le_rfl) (hdivides.before _ hmem)
    · exact hmem
  unfold Queue.qdelete
  rw [ht]
  dsimp only
  cases hfind : (s.q.drop (qsearch s.q t true)).findIdx? (·.2 = obj) with
  | none =>
    have hnone := List.findIdx?_eq_none_iff.mp hfind _ hdrop
    simp at hnone
  | some k =>
    obtain ⟨hk, heq, -⟩ := List.findIdx?_eq_some_iff_getElem.mp hfind
    simp only [decide_eq_true_eq] at heq
    refine ⟨qsearch s.q t true + k, ?_, rfl⟩
    have hget : s.q[qsearch s.q t true + k]? = some (s.q.drop (qsearch s.q t true))[k] := by
      rw [← List.getElem?_drop, List.getElem?_eq_getElem hk]
    rw [hget, h.eq_of_mem (List.mem_of_getElem? hget) hmem heq]

theorem Ok.qdelete (h : s.Ok) (obj : Obj) : (s.qdelete obj).Ok ∧ (s.qdelete obj).i = update s.i obj none := by
  cases ht : s.i obj with
  | none =>
    have heq : s.qdelete obj = s := by
      unfold Queue.qdelete
      rw [ht]
    rw [heq]
    exact ⟨h, by rw [← ht, update_eq_self]⟩
  | some t =>
    obtain ⟨k, hk, heq⟩ := h.qdelete_eq ht
    rw [heq]
    have hsub := List.eraseIdx_sublist s.q k
    refine ⟨⟨h.sorted.sublist hsub, h.nodup.sublist (hsub.map _), fun o t' => ?_⟩, rfl⟩
    dsimp only
    rw [List.mem_eraseIdx_iff_getElem?]
    by_cases ho : o = obj
    · subst ho
      rw [update_self]
      refine ⟨fun hnone => (by cases hnone), ?_⟩
      rintro ⟨j, hj, hget⟩
      -- a second pair for the same object
      exfalso
      have hpair := h.eq_of_mem (List.mem_of_getElem? hget) (List.mem_of_getElem? hk) rfl
      rw [hpair] at hget
      have hnodup : s.q.Nodup := h.nodup.of_map
      obtain ⟨hjlt, hj'⟩ := List.getElem?_eq_some_iff.mp hget
      obtain ⟨hklt, hk'⟩ := List.getElem?_eq_some_iff.mp hk
      exact hj (hnodup.getElem_inj_iff.mp (hj'.trans hk'.symm))
    · rw [update_of_ne ho, h.index]
      constructor
      · intro hmem
        obtain ⟨j, hj⟩ := List.mem_iff_getElem?.mp hmem
        refine ⟨j, ?_, hj⟩
        rintro rfl
        rw [hk] at hj
        exact ho (congrArg Prod.snd (Option.some.inj hj)).symm
      · rintro ⟨j, -, hj⟩
        exact List.mem_of_getElem? hj

theorem Ok.qinsert (h : s.Ok) (timeout : Int) (obj : Obj) :
    (s.qinsert timeout obj).Ok ∧ (s.qinsert timeout obj).i = update s.i obj (some timeout) := by
  obtain ⟨s₁, hs₁, hok, hi, hnone⟩ : ∃ s₁ : Queue Obj,
      s₁ = (if (s.i obj).isSome then s.qdelete obj else s) ∧ s₁.Ok ∧
        (∀ o, o ≠ obj → s₁.i o = s.i o) ∧ s₁.i obj = none := by
    refine ⟨_, rfl, ?_⟩
    split
    · obtain ⟨hok, hi⟩ := h.qdelete obj
      refine ⟨hok, fun o ho => ?_, ?_⟩
      · rw [hi, update_of_ne ho]
      · rw [hi, update_self]
    · rename_i hnot
      exact ⟨h, fun _ _ => rfl, by simpa using hnot⟩
  have hindex : update s₁.i obj (some timeout) = update s.i obj (some timeout) := by
    funext o
    by_cases ho : o = obj
    · rw [ho, update_self, update_self]
    · rw [update_of_ne ho, update_of_ne ho, hi o ho]
  have hdivides : Divides s₁.q timeout false (qsearch s₁.q timeout false) := qsearch_divides hok.sorted
  have hnew : obj ∉ s₁.q.map Prod.snd := by
    intro hmem
    obtain ⟨⟨t, o⟩, hp, rfl⟩ := List.mem_map.mp hmem
    rw [(hok.index o t).mpr hp] at hnone
    cases hnone
  have hq : s.qinsert timeout obj = ⟨s₁.q.insertIdx (qsearch s₁.q timeout false) (timeout, obj),
      update s₁.i obj (some timeout)⟩ := by
    unfold Queue.qinsert
    rw [← hs₁]
  rw [hq, ← hindex]
  have hperm : (s₁.q.insertIdx (qsearch s₁.q timeout false) (timeout, obj)).Perm ((timeout, obj) :: s₁.q) :=
    List.perm_insertIdx _ _ hdivides.le
  refine ⟨⟨?_, ?_, fun o t => ?_⟩, rfl⟩
  · -- the pairs before have no later timeout, those behind a later one
    rw [insertIdx_eq _ hdivides.le]
    refine List.pairwise_append.mpr ⟨hok.sorted.sublist (List.take_sublist _ _), ?_, ?_⟩
    · refine List.pairwise_cons.mpr ⟨fun p hp => ?_, hok.sorted.sublist (List.drop_sublist _ _)⟩
      exact le_of_lt (show timeout < p.1 from hdivides.after p hp)
    · intro p hp p' hp'
      have hle : ¬timeout < p.1 := hdivides.before p hp
      rcases List.mem_cons.mp hp' with rfl | hp'
      · dsimp only
        omega
      · have hlt : timeout < p'.1 := hdivides.after p' hp'
        omega
  · rw [(hperm.map _).nodup_iff, List.map_cons, List.nodup_cons]
    exact ⟨hnew, hok.nodup⟩
  · dsimp only
    rw [hperm.mem_iff, List.mem_cons, Prod.mk.injEq]
    by_cases ho : o = obj
    · subst ho
      rw [update_self, Option.some.injEq]
      refine ⟨fun heq => Or.inl ⟨heq.symm, rfl⟩, ?_⟩
      rintro (⟨rfl, -⟩ | hmem)
      · rfl
      · exact absurd (List.mem_map_of_mem hmem) hnew
    · rw [update_of_ne ho, hok.index]
      tauto

theorem Ok.qpop (h : s.Ok) (hhead : s.qhead = some (timeout, obj)) :
    s.qpop.Ok ∧ s.qpop.i = update s.i obj none ∧ ∀ o t, s.i o = some t → timeout ≤ t := by
  obtain ⟨rest, hq⟩ := List.head?_eq_some_iff.mp hhead
  obtain ⟨hsorted, hnodup, hindex⟩ := h
  rw [hq] at hsorted hnodup
  obtain ⟨hleast, hsorted⟩ := List.pairwise_cons.mp hsorted
  obtain ⟨hnew, hnodup⟩ := List.nodup_cons.mp hnodup
  have hpop : s.qpop = ⟨rest, update s.i obj none⟩ := by
    unfold Queue.qpop
    rw [hq]
  rw [hpop]
  refine ⟨⟨hsorted, hnodup, fun o t => ?_⟩, rfl, fun o t ht => ?_⟩
  · dsimp only
    by_cases ho : o = obj
    · subst ho
      rw [update_self]
      exact ⟨fun hnone => (by cases hnone), fun hmem => absurd (List.mem_map_of_mem hmem) hnew⟩
    · rw [update_of_ne ho, hindex, hq, List.mem_cons, Prod.mk.injEq]
      tauto
  · rw [hindex, hq] at ht
    rcases List.mem_cons.mp ht with heq | hmem
    · exact (Prod.mk.inj heq).1.ge
    · exact hleast _ hmem

end Queue

structure TimeoutQueue (Obj : Type) [DecidableEq Obj] extends Queue Obj where
  ok : toQueue.Ok

namespace TimeoutQueue

variable (s : TimeoutQueue Obj) (obj : Obj) (timeout : Int)

def empty : TimeoutQueue Obj where
  q := []
  i _ := none
  ok := ⟨.nil, .nil, by simp⟩

def qfind (obj : Obj) : Option Int := s.i obj

def qhead : Option (Int × Obj) := s.toQueue.qhead

def qinsert : TimeoutQueue Obj := ⟨s.toQueue.qinsert timeout obj, (s.ok.qinsert timeout obj).1⟩

def qdelete : TimeoutQueue Obj := ⟨s.toQueue.qdelete obj, (s.ok.qdelete obj).1⟩

theorem ok_qpop : s.toQueue.qpop.Ok := by
  cases hhead : s.toQueue.qhead with
  | none =>
    have hq : s.q = [] := List.head?_eq_none_iff.mp hhead
    have hpop : s.toQueue.qpop = s.toQueue := by
      unfold Queue.qpop
      rw [hq]
    rw [hpop]
    exact s.ok
  | some p => exact (s.ok.qpop hhead).1

def qpop : TimeoutQueue Obj := ⟨s.toQueue.qpop, s.ok_qpop⟩

@[simp] theorem qfind_empty : (empty : TimeoutQueue Obj).qfind obj = none := rfl

@[simp] theorem qfind_qinsert (o : Obj) :
    (s.qinsert obj timeout).qfind o = if o = obj then some timeout else s.qfind o := by
  show (s.toQueue.qinsert timeout obj).i o = _
  rw [(s.ok.qinsert timeout obj).2, update_apply]
  rfl

@[simp] theorem qfind_qdelete (o : Obj) : (s.qdelete obj).qfind o = if o = obj then none else s.qfind o := by
  show (s.toQueue.qdelete obj).i o = _
  rw [(s.ok.qdelete obj).2, update_apply]
  rfl

variable {s obj timeout}

theorem qfind_qpop (h : s.qhead = some (timeout, obj)) (o : Obj) :
    s.qpop.qfind o = if o = obj then none else s.qfind o := by
  show s.toQueue.qpop.i o = _
  rw [(s.ok.qpop h).2.1, update_apply]
  rfl

theorem qfind_of_qhead (h : s.qhead = some (timeout, obj)) : s.qfind obj = some timeout :=
  (s.ok.index obj timeout).mpr (List.mem_of_mem_head? h)

end TimeoutQueue

end Emulab.Stated
