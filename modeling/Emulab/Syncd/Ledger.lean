import Emulab.Syncd.Barrier

/-! # The ledger of the barriers

  What the barriers are for: everything that has been contributed under a
  name is kept until the contributions even out. Then all clients that wait
  are told the largest error that has been reported, and the name is
  forgotten. A client that goes away takes its contribution with it.
-/

namespace Emulab.Syncd

open MachineInt Function

/-! ## Section 1: Contributions -/

/-- A contribution. -/
structure Entry where
  name : List Byte
  init : Bool
  waits : Bool
  client : Waiter

/-- The sum of the counts of the initializers, less the number of the others. -/
def balance (es : List Entry) : Int :=
  ((es.filter (·.init)).map (·.client.count)).sum - (es.filter fun e => !e.init).length

def waiting (es : List Entry) : List Waiter := (es.filter (·.waits)).map (·.client)

/-- The client of the contribution waits on this socket. -/
def Entry.waitsAt (sock : Nat) (e : Entry) : Bool :=
  e.waits && e.client.istcp && e.client.sock = sock

/-- What a contribution adds to the balance. -/
def Entry.amount (e : Entry) : Int := if e.init then e.client.count else -1

theorem balance_eq_sum (es : List Entry) : balance es = (es.map (·.amount)).sum := by
  unfold balance
  induction es with
  | nil => rfl
  | cons e es ih =>
    rw [List.map_cons, List.sum_cons, ← ih]
    cases hinit : e.init with
    | true =>
      simp only [hinit, List.filter_cons, if_true, List.map_cons, List.sum_cons, Entry.amount,
        Bool.not_true, Bool.false_eq_true, if_false]
      omega
    | false =>
      simp only [hinit, List.filter_cons, if_true, List.length_cons, Entry.amount, Bool.not_false,
        Bool.false_eq_true, if_false]
      omega

@[simp] theorem balance_nil : balance [] = 0 := rfl

theorem balance_append (es es' : List Entry) : balance (es ++ es') = balance es + balance es' := by
  rw [balance_eq_sum, balance_eq_sum, balance_eq_sum, List.map_append, List.sum_append]

theorem balance_perm {es es' : List Entry} (h : es.Perm es') : balance es = balance es' := by
  rw [balance_eq_sum, balance_eq_sum]
  exact (h.map _).sum_eq

@[simp] theorem waiting_nil : waiting [] = [] := rfl

@[simp] theorem waiting_append (es es' : List Entry) : waiting (es ++ es') = waiting es ++ waiting es' := by
  unfold waiting
  rw [List.filter_append, List.map_append]

theorem waiting_flatMap {α : Type} (keys : List α) (f : α → List Entry) :
    waiting (keys.flatMap f) = keys.flatMap fun k => waiting (f k) := by
  induction keys with
  | nil => rfl
  | cons k keys ih => rw [List.flatMap_cons, waiting_append, ih, List.flatMap_cons]

theorem waiting_filter (es : List Entry) (sock : Nat) :
    waiting (es.filter fun e => !e.waitsAt sock) = (waiting es).filter fun w => !(w.istcp && w.sock = sock) := by
  unfold waiting
  rw [List.filter_map, List.filter_filter, List.filter_filter]
  congr 1
  apply List.filter_congr
  intro e _
  simp only [comp, Entry.waitsAt]
  cases e.waits with
  | true => simp [Bool.and_comm]
  | false => simp

theorem waiting_at (es : List Entry) (sock : Nat) : (es.filter fun e => e.waitsAt sock).map (·.client) =
      (waiting es).filter fun w => w.istcp && w.sock = sock := by
  unfold waiting
  rw [List.filter_map, List.filter_filter]
  congr 1
  apply List.filter_congr
  intro e _
  simp only [comp, Entry.waitsAt]
  rw [Bool.and_assoc, Bool.and_comm, Bool.and_assoc]

/-! ## Section 2: The ledger -/

structure Ledger where
  entries : List Entry
  /-- The largest error that has been reported under a name. -/
  error : List Byte → Int
  recorded : List Waiter
  /-- The recorded clients that have been answered, and what they have been told. -/
  answered : List (Waiter × Int)
  /-- The recorded clients that have gone away. -/
  removed : List Waiter
  /-- The initializers that did not wait. -/
  excused : List Waiter

def Ledger.start : Ledger where
  entries := []
  error _ := 0
  recorded := []
  answered := []
  removed := []
  excused := []

/-- The contributions under a name. -/
def Ledger.of (L : Ledger) (name : List Byte) : List Entry :=
  L.entries.filter fun e => e.name = name

/-- Where the contributions under a name even out, the clients are told, and the name forgotten. -/
def Ledger.cross (L : Ledger) (name : List Byte) : Ledger :=
  if balance (L.of name) = 0 then
    { L with
      entries := L.entries.filter fun e => e.name ≠ name
      error := update L.error name 0
      answered := L.answered ++ (waiting (L.of name)).map fun w => (w, L.error name) }
  else
    L

/-- A contribution is made. -/
def Ledger.contribute (L : Ledger) (e : Entry) : Ledger :=
  let L := { L with entries := L.entries ++ [e] }
  if e.waits then
    { L with
      error := update L.error e.name (max (L.error e.name) e.client.error)
      recorded := L.recorded ++ [e.client] }.cross e.name
  else
    { L with excused := L.excused ++ [e.client] }.cross e.name

/-- The client on a socket goes away. -/
def Ledger.disconnect (L : Ledger) (sock : Nat) : Ledger :=
  let gone := L.entries.filter fun e => e.waitsAt sock
  gone.foldl (fun L e => L.cross e.name) { L with
      entries := L.entries.filter fun e => !e.waitsAt sock
      removed := L.removed ++ gone.map (·.client) }

/-- All clients are told that the server has been cleared. -/
def Ledger.clear (L : Ledger) : Ledger :=
  { L with
    entries := []
    error := fun _ => 0
    answered := L.answered ++ (waiting L.entries).map fun w => (w, SERVER_ERROR_SIGHUP) }

section

variable {L : Ledger} {name : List Byte}

theorem Ledger.of_cross (L : Ledger) {m : List Byte} (hne : m ≠ name) :
    (L.cross name).of m = L.of m ∧ (L.cross name).error m = L.error m := by
  unfold Ledger.cross
  split
  · constructor
    · unfold Ledger.of
      simp only [List.filter_filter]
      apply List.filter_congr
      intro e _
      by_cases he : e.name = m
      · simp [he, hne]
      · simp [he]
    · exact update_of_ne hne _ _
  · exact ⟨rfl, rfl⟩

/-- A name whose contributions even out is forgotten. -/
theorem Ledger.cross_of_zero (h : balance (L.of name) = 0) :
    (L.cross name).of name = [] ∧ (L.cross name).error name = 0 ∧
      (L.cross name).answered = L.answered ++ (waiting (L.of name)).map fun w => (w, L.error name) := by
  unfold Ledger.cross
  rw [if_pos h]
  refine ⟨?_, update_self .., rfl⟩
  unfold Ledger.of
  simp only [List.filter_filter, List.filter_eq_nil_iff]
  intro e _
  simp

theorem Ledger.cross_of_ne (h : balance (L.of name) ≠ 0) : L.cross name = L := if_neg h

theorem Ledger.cross_excused (L : Ledger) (name : List Byte) : (L.cross name).excused = L.excused := by
  unfold Ledger.cross
  split
  · rfl
  · rfl

/-! ## Section 3: Every client is accounted for -/

/-- Every client that has been recorded waits, or has been answered, or has gone away. -/
structure LedgerOk (L : Ledger) : Prop where
  recorded : L.recorded.Perm (waiting L.entries ++ L.answered.map (·.1) ++ L.removed)
  /-- A client that is not an initializer takes one off. -/
  counts : ∀ e ∈ L.entries, e.init = false → e.client.count = -1

theorem ledgerOk_start : LedgerOk .start where
  recorded := List.Perm.refl _
  counts := by
    intro e he
    cases he

theorem LedgerOk.cross (h : LedgerOk L) (name : List Byte) : LedgerOk (L.cross name) := by
  unfold Ledger.cross
  split
  · constructor
    · refine h.recorded.trans ?_
      -- those of the name move over
      have hsplit : (waiting L.entries).Perm
          (waiting (L.entries.filter fun e => e.name ≠ name) ++ waiting (L.of name)) := by
        unfold waiting Ledger.of
        rw [← List.map_append, ← List.filter_append]
        apply List.Perm.map
        apply List.Perm.filter
        refine (List.filter_append_perm (fun e : Entry => e.name = name) L.entries).symm.trans ?_
        refine List.perm_append_comm.trans ?_
        simp
      simp only [List.map_append, List.map_map, comp_def, List.map_id']
      apply List.Perm.append_right
      refine (hsplit.append_right _).trans ?_
      rw [List.append_assoc]
      exact List.Perm.append_left _ List.perm_append_comm
    · intro e he
      exact h.counts e (List.mem_of_mem_filter he)
  · exact h

theorem LedgerOk.contribute (h : LedgerOk L) {e : Entry}
    (he : e.init = false → e.client.count = -1) : LedgerOk (L.contribute e) := by
  have hcounts : ∀ e' ∈ L.entries ++ [e], e'.init = false → e'.client.count = -1 := by
    intro e' he'
    rcases List.mem_append.mp he' with he' | he'
    · exact h.counts e' he'
    · rw [List.mem_singleton.mp he']
      exact he
  unfold Ledger.contribute
  cases hwaits : e.waits with
  | true =>
    simp only [if_true]
    apply LedgerOk.cross
    refine ⟨?_, hcounts⟩
    have hone : waiting [e] = [e.client] := by simp [waiting, hwaits]
    simp only [waiting_append, hone]
    refine (h.recorded.append_right _).trans ?_
    simp only [List.append_assoc]
    apply List.Perm.append_left
    rw [← List.append_assoc]
    exact List.perm_append_comm
  | false =>
    simp only [Bool.false_eq_true, if_false]
    apply LedgerOk.cross
    refine ⟨?_, hcounts⟩
    have hnone : waiting [e] = [] := by simp [waiting, hwaits]
    simp only [waiting_append, hnone, List.append_nil]
    exact h.recorded

theorem LedgerOk.disconnect (h : LedgerOk L) (sock : Nat) : LedgerOk (L.disconnect sock) := by
  have hfold : ∀ (gone : List Entry) {L : Ledger}, LedgerOk L →
      LedgerOk (gone.foldl (fun L e => L.cross e.name) L) := by
    intro gone
    induction gone with
    | nil => exact fun h => h
    | cons e gone ih => exact fun h => ih (h.cross e.name)
  unfold Ledger.disconnect
  simp only
  apply hfold
  constructor
  · refine h.recorded.trans ?_
    have hsplit : (waiting L.entries).Perm (waiting (L.entries.filter fun e => !e.waitsAt sock) ++
          (L.entries.filter fun e => e.waitsAt sock).map (·.client)) := by
      rw [waiting_filter, waiting_at]
      refine (List.filter_append_perm (fun w : Waiter => w.istcp && w.sock = sock) _).symm.trans ?_
      exact List.perm_append_comm
    refine ((hsplit.append_right _).append_right _).trans ?_
    simp only [List.append_assoc]
    apply List.Perm.append_left
    refine List.perm_append_comm.trans ?_
    rw [List.append_assoc]
  · intro e he
    exact h.counts e (List.mem_of_mem_filter he)

theorem LedgerOk.clear (h : LedgerOk L) : LedgerOk L.clear where
  recorded := by
    refine h.recorded.trans ?_
    unfold Ledger.clear
    simp only [List.map_append, List.map_map, comp_def, List.map_id', waiting_nil, List.nil_append]
    exact List.Perm.append_right _ List.perm_append_comm
  counts := by
    intro e he
    cases he

end

end Emulab.Syncd
