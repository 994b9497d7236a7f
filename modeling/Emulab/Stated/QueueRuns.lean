import Emulab.Stated.TimeoutQueue

/-! # Runs of the timeout queue

  What the queue keeps is said best by a list in the order of insertion: an
  object that is inserted goes to its end with its timeout, and what comes off
  first is the earliest insertion among the least timeouts. The array holds the
  same pairs in the order of their timeouts, and for each timeout in the order
  of that list.
-/

namespace Emulab.Stated

variable {Obj : Type}

/-! ## Section 1: Places in a sorted queue -/

/-- A splice at this place leaves the timeouts in order. -/
def Insertable (q : List (Int × Obj)) (timeout : Int) (k : Nat) : Prop :=
  k ≤ q.length ∧ ((q.take k).map Prod.fst ++ timeout :: (q.drop k).map Prod.fst).Pairwise (· ≤ ·)

section

variable {q : List (Int × Obj)} {timeout : Int} {k : Nat}

theorem insertable_iff (hsorted : q.Pairwise (·.1 ≤ ·.1)) : Insertable q timeout k ↔
    k ≤ q.length ∧ (∀ p ∈ q.take k, p.1 ≤ timeout) ∧ ∀ p ∈ q.drop k, timeout ≤ p.1 := by
  unfold Insertable
  constructor
  · intro ⟨hle, hpair⟩
    obtain ⟨-, hrest, hcross⟩ := List.pairwise_append.mp hpair
    refine ⟨hle, fun p hp => ?_, fun p hp => ?_⟩
    · exact hcross _ (List.mem_map_of_mem hp) _ List.mem_cons_self
    · exact (List.pairwise_cons.mp hrest).1 _ (List.mem_map_of_mem hp)
  · intro ⟨hle, hbefore, hafter⟩
    have hkeys : (q.map Prod.fst).Pairwise (· ≤ ·) := List.pairwise_map.mpr hsorted
    rw [← List.take_append_drop k q, List.map_append] at hkeys
    obtain ⟨htake, hdrop, hcross⟩ := List.pairwise_append.mp hkeys
    refine ⟨hle, List.pairwise_append.mpr ⟨htake, List.pairwise_cons.mpr ⟨?_, hdrop⟩, ?_⟩⟩
    · intro t ht
      obtain ⟨p, hp, rfl⟩ := List.mem_map.mp ht
      exact hafter p hp
    · intro t ht t' ht'
      rcases List.mem_cons.mp ht' with heq | ht'
      · obtain ⟨p, hp, rfl⟩ := List.mem_map.mp ht
        rw [heq]
        exact hbefore p hp
      · exact hcross t ht t' ht'

theorem exists_between {k k' : Nat} (hlt : k < k') (hle : k' ≤ q.length) : ∃ p, p ∈ q.drop k ∧ p ∈ q.take k' := by
  have hk : k < q.length := Nat.lt_of_lt_of_le hlt hle
  refine ⟨q[k], ?_, ?_⟩
  · rw [List.drop_eq_getElem_cons hk]
    exact List.mem_cons_self
  · exact List.mem_take_iff_getElem.mpr ⟨k, by omega, rfl⟩

/-- With `$first` the search finds the first place, without it the last one. -/
theorem qsearch_places (hsorted : q.Pairwise (·.1 ≤ ·.1)) :
    IsLeast {k | Insertable q timeout k} (qsearch q timeout true) ∧
      IsGreatest {k | Insertable q timeout k} (qsearch q timeout false) := by
  have hfirst : Divides q timeout true (qsearch q timeout true) := qsearch_divides hsorted
  have hlast : Divides q timeout false (qsearch q timeout false) := qsearch_divides hsorted
  have hbefore : ∀ p ∈ q.take (qsearch q timeout true), p.1 < timeout := fun p hp =>
    not_le.mp (show ¬timeout ≤ p.1 from hfirst.before p hp)
  have hafter : ∀ p ∈ q.drop (qsearch q timeout false), timeout < p.1 := fun p hp =>
    show timeout < p.1 from hlast.after p hp
  constructor
  · constructor
    · exact (insertable_iff hsorted).mpr
        ⟨hfirst.le, fun p hp => le_of_lt (hbefore p hp), fun p hp => hfirst.after p hp⟩
    · -- behind a lesser place there is still a pair with a lesser timeout
      intro k hk
      obtain ⟨-, -, hk⟩ := (insertable_iff hsorted).mp hk
      by_contra hlt
      obtain ⟨p, hdrop, htake⟩ := exists_between (not_le.mp hlt) hfirst.le
      have hless := hbefore p htake
      have hmore := hk p hdrop
      omega
  · constructor
    · exact (insertable_iff hsorted).mpr
        ⟨hlast.le, fun p hp => not_lt.mp (show ¬timeout < p.1 from hlast.before p hp),
          fun p hp => le_of_lt (hafter p hp)⟩
    · -- before a greater place there is already a pair with a greater timeout
      intro k hk
      obtain ⟨hle, hk, -⟩ := (insertable_iff hsorted).mp hk
      by_contra hlt
      obtain ⟨p, hdrop, htake⟩ := exists_between (not_le.mp hlt) hle
      have hless := hk p htake
      have hmore := hafter p hdrop
      omega

end

/-! ## Section 2: The order of insertion -/

variable [DecidableEq Obj]

/-- The calls -/
inductive QueueOp (Obj : Type) where
  | qinsert (timeout : Int) (obj : Obj)
  | qdelete (obj : Obj)
  | qpop

/-- One call on the array and the index. -/
def Queue.step (s : Queue Obj) : QueueOp Obj → Queue Obj
  | .qinsert timeout obj => s.qinsert timeout obj
  | .qdelete obj => s.qdelete obj
  | .qpop => s.qpop

/-- The pair that is due next: among the least timeouts the one that was inserted first. -/
def earliest (log : List (Int × Obj)) : Option (Int × Obj) :=
  log.find? fun p => ∀ p' ∈ log, p.1 ≤ p'.1

/-- What one call does to the pairs in the order of insertion. -/
def logStep (log : List (Int × Obj)) : QueueOp Obj → List (Int × Obj)
  | .qinsert timeout obj => log.filter (·.2 ≠ obj) ++ [(timeout, obj)]
  | .qdelete obj => log.filter (·.2 ≠ obj)
  | .qpop =>
    match earliest log with
    | none => log
    | some (_, obj) => log.filter (·.2 ≠ obj)

/-- The queue and the log have the same pairs, for each timeout in one order. -/
structure Refines (s : Queue Obj) (log : List (Int × Obj)) : Prop where
  ok : s.Ok
  order : ∀ t, s.q.filter (·.1 = t) = log.filter (·.1 = t)

section

variable {s : Queue Obj} {log : List (Int × Obj)} {timeout : Int} {obj : Obj}

omit [DecidableEq Obj] in
theorem Refines.mem_iff (h : Refines s log) (p : Int × Obj) : p ∈ s.q ↔ p ∈ log := by
  have hself : ∀ l : List (Int × Obj), p ∈ l ↔ p ∈ l.filter (·.1 = p.1) := by simp
  rw [hself s.q, h.order, ← hself]

omit [DecidableEq Obj] in
theorem eraseIdx_eq_filter {β : Type} [DecidableEq β] {l : List Obj} {f : Obj → β} {k : Nat} {a : Obj}
    (hnodup : (l.map f).Nodup) (hk : l[k]? = some a) : l.eraseIdx k = l.filter (f · ≠ f a) := by
  induction l generalizing k with
  | nil => cases hk
  | cons b l ih =>
    rw [List.map_cons, List.nodup_cons] at hnodup
    cases k with
    | zero =>
      obtain rfl : b = a := Option.some.inj hk
      -- no other entry has the value of the first
      have hrest : l.filter (f · ≠ f b) = l := by
        refine List.filter_eq_self.mpr fun c hc => ?_
        rw [decide_eq_true_eq]
        intro heq
        exact hnodup.1 (heq ▸ List.mem_map_of_mem hc)
      rw [List.eraseIdx_cons_zero, List.filter_cons_of_neg (by simp), hrest]
    | succ k =>
      rw [List.getElem?_cons_succ] at hk
      have hne : f b ≠ f a := by
        intro heq
        rw [heq] at hnodup
        exact hnodup.1 (List.mem_map_of_mem (List.mem_of_getElem? hk))
      rw [List.eraseIdx_cons_succ, ih hnodup.2 hk, List.filter_cons_of_pos (by simpa using hne)]

/-- A deletion takes out the pair of its object and no other. -/
theorem Queue.Ok.qdelete_q (h : s.Ok) (obj : Obj) : (s.qdelete obj).q = s.q.filter (·.2 ≠ obj) := by
  cases ht : s.i obj with
  | none =>
    -- what is not in the index is not in the queue
    have hsame : s.qdelete obj = s := by
      unfold Queue.qdelete
      rw [ht]
    rw [hsame]
    refine (List.filter_eq_self.mpr fun p hp => ?_).symm
    rw [decide_eq_true_eq]
    intro heq
    have hindex := (h.index p.2 p.1).mpr hp
    rw [heq, ht] at hindex
    cases hindex
  | some t =>
    obtain ⟨k, hk, heq⟩ := h.qdelete_eq ht
    rw [heq]
    exact eraseIdx_eq_filter h.nodup hk

/-- An insertion puts the pair behind those that are no later. -/
theorem Queue.Ok.qinsert_q (h : s.Ok) (timeout : Int) (obj : Obj) : ∃ k, (s.qinsert timeout obj).q =
        (s.q.filter (·.2 ≠ obj)).take k ++ (timeout, obj) :: (s.q.filter (·.2 ≠ obj)).drop k ∧
      ∀ p ∈ (s.q.filter (·.2 ≠ obj)).drop k, timeout < p.1 := by
  have hremoved : (if (s.i obj).isSome then s.qdelete obj else s) = s.qdelete obj := by
    split
    · rfl
    · rename_i hnone
      unfold Queue.qdelete
      rw [Option.not_isSome_iff_eq_none.mp hnone]
  have hdivides : Divides (s.qdelete obj).q timeout false (qsearch (s.qdelete obj).q timeout false) :=
    qsearch_divides (h.qdelete obj).1.sorted
  have hq : (s.qinsert timeout obj).q =
      (s.qdelete obj).q.insertIdx (qsearch (s.qdelete obj).q timeout false) (timeout, obj) := by
    unfold Queue.qinsert
    rw [hremoved]
  rw [← h.qdelete_q obj, hq]
  exact ⟨_, Queue.insertIdx_eq _ hdivides.le, fun p hp => hdivides.after p hp⟩

omit [DecidableEq Obj] in
theorem filter_comm (p p' : Int × Obj → Bool) (l : List (Int × Obj)) :
    (l.filter p).filter p' = (l.filter p').filter p := by
  rw [List.filter_filter, List.filter_filter]
  simp only [Bool.and_comm]

theorem Refines.qdelete (h : Refines s log) (obj : Obj) : Refines (s.qdelete obj) (log.filter (·.2 ≠ obj)) where
  ok := (h.ok.qdelete obj).1
  order t := by rw [h.ok.qdelete_q, filter_comm, h.order, filter_comm]

theorem Refines.qinsert (h : Refines s log) (timeout : Int) (obj : Obj) :
    Refines (s.qinsert timeout obj) (log.filter (·.2 ≠ obj) ++ [(timeout, obj)]) where
  ok := (h.ok.qinsert timeout obj).1
  order t := by
    obtain ⟨k, hq, hafter⟩ := h.ok.qinsert_q timeout obj
    have hrest : (s.q.filter (·.2 ≠ obj)).filter (·.1 = t) = (log.filter (·.2 ≠ obj)).filter (·.1 = t) := by
      rw [filter_comm, h.order, filter_comm]
    rw [hq, List.filter_append, List.filter_append, ← hrest]
    generalize s.q.filter (·.2 ≠ obj) = q at hafter ⊢
    have hsplit : q.filter (·.1 = t) = (q.take k).filter (·.1 = t) ++ (q.drop k).filter (·.1 = t) := by
      rw [← List.filter_append, List.take_append_drop]
    rw [hsplit, List.filter_cons]
    by_cases heq : timeout = t
    · -- no pair with this timeout is behind the new one
      have hnone : (q.drop k).filter (·.1 = t) = [] := by
        refine List.filter_eq_nil_iff.mpr fun p hp => ?_
        have hlt := hafter p hp
        simp only [decide_eq_true_eq]
        omega
      rw [hnone]
      simp [heq]
    · simp [heq]

omit [DecidableEq Obj] in
/-- The first pair of the queue is the one that is due next. -/
theorem Refines.qhead_eq (h : Refines s log) : s.qhead = earliest log := by
  unfold earliest
  cases hhead : s.qhead with
  | none =>
    have hq : s.q = [] := List.head?_eq_none_iff.mp hhead
    have hlog : log = [] := by
      refine List.eq_nil_iff_forall_not_mem.mpr fun p hp => ?_
      rw [← h.mem_iff, hq] at hp
      cases hp
    rw [hlog]
    rfl
  | some p =>
    obtain ⟨rest, hq⟩ := List.head?_eq_some_iff.mp hhead
    have hsorted := h.ok.sorted
    rw [hq, List.pairwise_cons] at hsorted
    have hleast : ∀ p' ∈ log, p.1 ≤ p'.1 := by
      intro p' hp'
      rw [← h.mem_iff, hq] at hp'
      rcases List.mem_cons.mp hp' with rfl | hp'
      · exact le_rfl
      · exact hsorted.1 p' hp'
    have hmem : p ∈ log := by
      rw [← h.mem_iff, hq]
      exact List.mem_cons_self
    -- the pairs that are no later than any other are those with this timeout
    have hsame : ∀ p' ∈ log, (decide (∀ p'' ∈ log, p'.1 ≤ p''.1)) = decide (p'.1 = p.1) := by
      intro p' hp'
      refine decide_eq_decide.mpr ⟨fun hle => ?_, fun heq p'' hp'' => ?_⟩
      · exact le_antisymm (hle p hmem) (hleast p' hp')
      · rw [heq]
        exact hleast p'' hp''
    have hfirst : (log.filter (·.1 = p.1)).head? = some p := by
      rw [← h.order, hq, List.filter_cons_of_pos (by simp)]
      rfl
    rw [← List.head?_filter, List.filter_congr hsame, hfirst]

omit [DecidableEq Obj] in
theorem Queue.Ok.tail_eq_filter [DecidableEq Obj] (h : s.Ok) {rest : List (Int × Obj)}
    (hq : s.q = (timeout, obj) :: rest) : rest = s.q.filter (·.2 ≠ obj) := by
  have hfirst : s.q[0]? = some (timeout, obj) := by rw [hq]; rfl
  have herase : s.q.eraseIdx 0 = s.q.filter (·.2 ≠ obj) := eraseIdx_eq_filter h.nodup hfirst
  rw [← herase, hq]
  rfl

theorem Refines.qpop (h : Refines s log) : Refines s.qpop (logStep log .qpop) := by
  unfold logStep
  rw [← h.qhead_eq]
  cases hhead : s.qhead with
  | none =>
    have hq : s.q = [] := List.head?_eq_none_iff.mp hhead
    have hpop : s.qpop = s := by
      unfold Queue.qpop
      rw [hq]
    rw [hpop]
    exact h
  | some p =>
    obtain ⟨t, obj⟩ := p
    obtain ⟨rest, hq⟩ := List.head?_eq_some_iff.mp hhead
    have hpop : s.qpop.q = rest := by
      unfold Queue.qpop
      rw [hq]
    have hrest := h.ok.tail_eq_filter hq
    refine ⟨(h.ok.qpop hhead).1, fun t' => ?_⟩
    rw [hpop, hrest, filter_comm, h.order, filter_comm]

theorem Refines.step (h : Refines s log) (op : QueueOp Obj) : Refines (s.step op) (logStep log op) := by
  cases op with
  | qinsert timeout obj => exact h.qinsert timeout obj
  | qdelete obj => exact h.qdelete obj
  | qpop => exact h.qpop

theorem Refines.run (h : Refines s log) (ops : List (QueueOp Obj)) :
    Refines (ops.foldl Queue.step s) (ops.foldl logStep log) := by
  induction ops generalizing s log with
  | nil => exact h
  | cons op ops ih => exact ih (h.step op)

end

/-- After every run of calls the queue is sorted, an object is in it at most once and is found in the index
    with its timeout; equal timeouts come in the order of insertion. A deletion takes out the pair of its
    object alone, and the first pair comes off first. The search finds the first and the last place for a
    timeout in every sorted queue. -/
theorem timeoutQueue_runs (ops : List (QueueOp Obj)) :
    let s := ops.foldl Queue.step (TimeoutQueue.empty : TimeoutQueue Obj).toQueue
    let log := ops.foldl logStep []
    (s.q.Pairwise (·.1 ≤ ·.1) ∧ (s.q.map Prod.snd).Nodup ∧
        ∀ obj timeout, s.i obj = some timeout ↔ (timeout, obj) ∈ s.q) ∧
      (∀ t, s.q.filter (·.1 = t) = log.filter (·.1 = t)) ∧
      (∀ obj, (s.qdelete obj).q = s.q.filter (·.2 ≠ obj)) ∧
      (s.qhead = earliest log ∧ s.q = s.qhead.toList ++ s.qpop.q) ∧
      ∀ (q : List (Int × Obj)) (timeout : Int), q.Pairwise (·.1 ≤ ·.1) →
        IsLeast {k | Insertable q timeout k} (qsearch q timeout true) ∧
          IsGreatest {k | Insertable q timeout k} (qsearch q timeout false) := by
  intro s log
  have hstart : Refines (TimeoutQueue.empty : TimeoutQueue Obj).toQueue [] :=
    ⟨TimeoutQueue.empty.ok, fun _ => rfl⟩
  have h : Refines s log := hstart.run ops
  refine ⟨⟨h.ok.sorted, h.ok.nodup, h.ok.index⟩, h.order, h.ok.qdelete_q, ⟨h.qhead_eq, ?_⟩,
    fun q timeout hsorted => qsearch_places hsorted⟩
  unfold Queue.qhead Queue.qpop
  cases hq : s.q with
  | nil => exact hq.symm
  | cons p q => rfl

end Emulab.Stated
