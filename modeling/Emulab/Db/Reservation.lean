import Emulab.Lib.Timeline

/-! # Reservations

  Whether the nodes of a type suffice for all reservations of this type. The
  ends of the experiments that are swapped in and the reservations are laid
  out along one timeline, which is swept with the number of free nodes.
-/

namespace Emulab.Db

open Timeline List Option

/-! ## Section 1: The records -/

/-- A reservation, or an experiment that is swapped in (it has an `eid`), or the
    free nodes (no `pid` either). A missing `end'` means forever. -/
structure Reservation where
  pid : Option String
  eid : Option String
  start : Option Int
  (end' : Option Int)
  type : String
  nodes : Nat
deriving DecidableEq, Repr

/-- A hypothetical future reservation. -/
def Reservation.create (pid : String) (start end' : Option Int) (type : String) (nodes : Nat) : Reservation :=
  { pid := some pid, eid := none, start := start, end' := end', type := type, nodes := nodes }

/-- An experiment that holds its nodes already. -/
def Reservation.createImmediate (pid eid : String) (end' : Option Int) (type : String)
    (nodes : Nat) : Reservation :=
  { pid := some pid, eid := some eid, start := some 0, end' := end', type := type, nodes := nodes }

/-- Nodes that are free since the beginning of time. -/
def Reservation.free (type : String) (nodes : Nat) : Reservation :=
  { pid := none, eid := none, start := some (-1), end' := none, type := type, nodes := nodes }

/-! ## Section 2: The timeline -/

structure Event where
  pid : Option String
  t : Int
  used : Int
  reserved : Int
deriving DecidableEq, Repr

/-- The body of the first loop of `IsFeasible`: the timeline and the free nodes. -/
def addReservation (acc : List Event × Nat) (reservation : Reservation) : List Event × Nat :=
  if reservation.eid.isSome then
    -- already using nodes, so there is no start event
    let end' := reservation.end'.map fun t =>
      ({ pid := reservation.pid, t := t, used := -reservation.nodes, reserved := 0 } : Event)
    (acc.1 ++ end'.toList, acc.2)
  else if reservation.pid.isSome then
    let start := reservation.start.map fun t =>
      ({ pid := reservation.pid, t := t, used := 0, reserved := reservation.nodes } : Event)
    let end' := reservation.end'.map fun t =>
      ({ pid := reservation.pid, t := t, used := 0, reserved := -reservation.nodes } : Event)
    (acc.1 ++ start.toList ++ end'.toList, acc.2)
  else
    (acc.1, reservation.nodes)

/-- The timeline in the order of the records, and the free nodes. -/
def layOut (reservations : List Reservation) : List Event × Nat :=
  reservations.foldl addReservation ([], 0)

/-! ## Section 3: The sweep -/

/-- The error of `IsFeasible`. -/
structure Shortage where
  t : Int
  needed : Int
deriving DecidableEq, Repr

def Shortage.text (localtime : Int → String) (s : Shortage) : String :=
  let time := localtime s.t
  let needed := s.needed
  s!"Insufficient free nodes at {time} ({needed} more needed)."

/-- The second loop of `IsFeasible`, with the hashes `%used` and `%reserved`. -/
def sweep (free : Int) (used reserved : Option String → Option Int) : List Event → Option Shortage
  | [] => none
  | event :: events =>
    let pid := event.pid
    let u := (used pid).getD 0
    let r := (reserved pid).getD 0
    let oldsum := u + r
    let u' := u + event.used
    let r' := r + event.reserved
    let newsum := u' + r'
    let free' := free + (oldsum - newsum)
    if free' < 0 then
      some { t := event.t, needed := -free' }
    else
      sweep free' (Function.update used pid (some u')) (Function.update reserved pid (some r')) events

/-- The events in the order of their times. -/
def sortEvents (timeline : List Event) : List Event := sortByTime Event.t timeline

/-- The first instant at which nodes are missing. -/
def shortage (reservations : List Reservation) : Option Shortage :=
  let (timeline, free) := layOut reservations
  sweep free (fun _ => none) (fun _ => none) (sortEvents timeline)

/-- Do the nodes suffice for all reservations? -/
def isFeasible (reservations : List Reservation) : Bool := (shortage reservations).isNone

/-- What an event adds to the free nodes. -/
def Event.effect (e : Event) : Int := -(e.used + e.reserved)

theorem sweep_eq_none_iff {free : Int} {used reserved : Option String → Option Int} {events : List Event} :
    sweep free used reserved events = none ↔ NeverNegative Event.effect free events := by
  induction events generalizing free used reserved with
  | nil =>
    constructor
    · intro _
      exact neverNegative_nil
    · intro _
      rfl
  | cons event events ih =>
    -- the sums of the event's project cancel out
    have hfree : ∀ u r : Int, free + ((u + r) - ((u + event.used) + (r + event.reserved))) =
        free + event.effect := by
      intro u r
      unfold Event.effect
      omega
    rw [neverNegative_cons]
    unfold sweep
    simp only [hfree]
    by_cases hneg : free + event.effect < 0
    · simp only [hneg, if_true, reduceCtorEq, false_iff]
      intro h
      exact absurd h.1 (not_le.mpr hneg)
    · simp only [hneg, if_false, ih]
      constructor
      · intro h
        exact ⟨not_lt.mp hneg, h⟩
      · intro h
        exact h.2

/-! ## Section 4: Feasibility -/

/-- Is it an experiment that is swapped in? -/
abbrev Reservation.Slice (r : Reservation) : Prop := r.eid.isSome

abbrev Reservation.Future (r : Reservation) : Prop := r.eid = none ∧ r.pid.isSome

/-- Are these free nodes? -/
abbrev Reservation.Available (r : Reservation) : Prop := r.eid = none ∧ r.pid = none

/-- Does the interval from `start` up to, but not including, `end'` contain `t`? -/
abbrev Reservation.ActiveAt (r : Reservation) (t : Int) : Prop :=
  (∃ s ∈ r.start, s ≤ t) ∧ ∀ e ∈ r.end', t < e

/-- Does the interval from `start` up to and including `end'` contain `t`? -/
abbrev Reservation.ActiveUpTo (r : Reservation) (t : Int) : Prop :=
  (∃ s ∈ r.start, s ≤ t) ∧ ∀ e ∈ r.end', t ≤ e

def nodesOf (p : Reservation → Prop) [DecidablePred p] (l : List Reservation) : Int :=
  ((l.filter fun r => decide (p r)).map fun r => (r.nodes : Int)).sum

/-- At all times the free nodes and the nodes that the experiments have released
    suffice for the reservations that are active. -/
def Feasible (l : List Reservation) : Prop :=
  ∀ t : Int, nodesOf (fun r => r.Future ∧ r.ActiveAt t) l ≤
    nodesOf Reservation.Available l + nodesOf (fun r => r.Slice ∧ ∃ e ∈ r.end', e ≤ t) l

/-- As `Feasible`, with nodes that are in use up to and including the end of their interval. -/
def FeasibleUpToEnds (l : List Reservation) : Prop :=
  ∀ t : Int, nodesOf (fun r => r.Future ∧ r.ActiveUpTo t) l ≤
    nodesOf Reservation.Available l + nodesOf (fun r => r.Slice ∧ ∃ e ∈ r.end', e < t) l

/-- A reservation starts, and it ends after its start: `reserve` refuses others.
    All free nodes are in one record, as the query groups them. -/
structure WellFormed (l : List Reservation) : Prop where
  interval : ∀ r ∈ l, r.Future → ∃ s ∈ r.start, ∀ e ∈ r.end', s < e
  available : (l.filter fun r => decide r.Available).length ≤ 1

theorem WellFormed.perm {l l' : List Reservation} (h : WellFormed l) (hp : l'.Perm l) : WellFormed l' where
  interval := fun r hr => h.interval r (hp.mem_iff.mp hr)
  available := by
    rw [(hp.filter _).length_eq]
    exact h.available

section Nodes

variable {p q : Reservation → Prop} [DecidablePred p] [DecidablePred q]

@[simp] theorem nodesOf_nil : nodesOf p [] = 0 := rfl

@[simp] theorem nodesOf_cons (r : Reservation) (l : List Reservation) :
    nodesOf p (r :: l) = (if p r then (r.nodes : Int) else 0) + nodesOf p l := by
  unfold nodesOf
  by_cases h : p r
  · simp [h]
  · simp [h]

@[simp] theorem nodesOf_append (l l' : List Reservation) : nodesOf p (l ++ l') = nodesOf p l + nodesOf p l' := by
  simp [nodesOf]

theorem nodesOf_nonneg (l : List Reservation) : 0 ≤ nodesOf p l := by
  unfold nodesOf
  apply sum_nonneg
  intro x hx
  obtain ⟨r, _, rfl⟩ := mem_map.mp hx
  exact Int.natCast_nonneg _

theorem nodesOf_perm {l l' : List Reservation} (h : l.Perm l') : nodesOf p l = nodesOf p l' :=
  ((h.filter _).map _).sum_eq

theorem feasible_perm {l l' : List Reservation} (h : l.Perm l') : Feasible l ↔ Feasible l' := by
  unfold Feasible
  simp only [nodesOf_perm h]

end Nodes

/-! ## Section 5: What the timeline says -/

def Reservation.events (r : Reservation) : List Event := (addReservation ([], 0) r).1

theorem addReservation_eq (acc : List Event × Nat) (r : Reservation) :
    addReservation acc r = (acc.1 ++ r.events, if r.Available then r.nodes else acc.2) := by
  obtain ⟨pid, eid, start, end', type, nodes⟩ := r
  unfold Reservation.events addReservation
  cases eid <;> cases pid <;> simp

theorem foldl_addReservation (l : List Reservation) (acc : List Event × Nat) :
    l.foldl addReservation acc = (acc.1 ++ l.flatMap Reservation.events,
      (l.filter fun r => decide r.Available).foldl (fun _ r => r.nodes) acc.2) := by
  induction l generalizing acc with
  | nil => simp
  | cons r l ih =>
    rw [foldl_cons, ih, addReservation_eq, flatMap_cons, append_assoc]
    by_cases hr : r.Available
    · rw [filter_cons_of_pos (by simpa using hr), foldl_cons, if_pos hr]
    · rw [filter_cons_of_neg (by simpa using hr), if_neg hr]

abbrev timeline (l : List Reservation) : List Event := l.flatMap Reservation.events

theorem layOut_fst (l : List Reservation) : (layOut l).1 = timeline l := by
  unfold layOut
  rw [foldl_addReservation]
  exact nil_append _

variable {l : List Reservation}

theorem layOut_snd (h : WellFormed l) : ((layOut l).2 : Int) = nodesOf Reservation.Available l := by
  have hone := h.available
  unfold layOut nodesOf
  rw [foldl_addReservation]
  generalize (l.filter fun r => decide r.Available) = available at hone ⊢
  match available, hone with
  | [], _ => rfl
  | [r], _ => simp

/-- `isFeasible` looks whether the nodes suffice after each event. -/
theorem isFeasible_iff_neverNegative (h : WellFormed l) : isFeasible l = true ↔
      NeverNegative Event.effect (nodesOf Reservation.Available l) (sortEvents (timeline l)) := by
  rw [isFeasible, isNone_iff_eq_none, shortage, sweep_eq_none_iff, layOut_fst, layOut_snd h]

/-- The events of a record are those of its start and of its end. -/
theorem mem_events {r : Reservation} {e : Event} (h : e ∈ r.events) :
    (r.Future ∧ e.t ∈ r.start ∧ e.effect = -r.nodes) ∨
    (e.t ∈ r.end' ∧ e.effect = r.nodes) := by
  obtain ⟨pid, eid, start, end', type, nodes⟩ := r
  unfold Reservation.events addReservation at h
  cases eid with
  | some eid =>
    cases end' with
    | none => simp at h
    | some t =>
      simp only [isSome_some, if_true, map_some, toList_some, nil_append, mem_singleton] at h
      subst h
      exact .inr ⟨rfl, by simp [Event.effect]⟩
  | none =>
    cases pid with
    | none => simp at h
    | some pid =>
      simp only [isSome_none, Bool.false_eq_true, if_false, isSome_some, if_true,
        nil_append, mem_append, mem_toList, map_eq_some_iff] at h
      rcases h with ⟨t, ht, rfl⟩ | ⟨t, ht, rfl⟩
      · exact .inl ⟨⟨rfl, rfl⟩, ht, by simp [Event.effect]⟩
      · exact .inr ⟨ht, by simp [Event.effect]⟩

/-- What the events of a record up to a time add to the free nodes. -/
theorem total_events (r : Reservation) (t : Int) (hr : r.Future → ∃ s ∈ r.start, ∀ e ∈ r.end', s < e) :
    total Event.effect (r.events.filter fun e => e.t ≤ t) =
      (if r.Slice ∧ ∃ e ∈ r.end', e ≤ t then (r.nodes : Int) else 0) -
        if r.Future ∧ r.ActiveAt t then (r.nodes : Int) else 0 := by
  obtain ⟨pid, eid, start, end', type, nodes⟩ := r
  unfold Reservation.events addReservation
  cases eid with
  | some eid =>
    cases end' with
    | none => simp [Reservation.Future]
    | some e =>
      by_cases he : e ≤ t
      · simp [he, Event.effect, Reservation.Slice, Reservation.Future]
      · simp [he, Reservation.Future]
  | none =>
    cases pid with
    | none => simp [Reservation.Slice, Reservation.Future]
    | some pid =>
      obtain ⟨s, hs, hlt⟩ := hr ⟨rfl, rfl⟩
      have hs : start = some s := hs
      subst hs
      cases end' with
      | none =>
        by_cases hst : s ≤ t
        · simp [hst, Event.effect, Reservation.Future, Reservation.ActiveAt]
        · simp [hst, Reservation.ActiveAt]
      | some e =>
        have hlt : s < e := hlt e rfl
        by_cases hst : s ≤ t
        · by_cases het : e ≤ t
          · simp [hst, het, Event.effect, Reservation.Slice, Reservation.ActiveAt]
          · simp [hst, het, not_le.mp het, Event.effect, Reservation.Future, Reservation.ActiveAt]
        · have het : ¬ e ≤ t := by omega
          simp [hst, het, Reservation.ActiveAt]

/-- What the events of a record before a time, and the start at this time, add. -/
theorem worst_events (r : Reservation) (t : Int) (hr : r.Future → ∃ s ∈ r.start, ∀ e ∈ r.end', s < e) :
    worst Event.t Event.effect r.events t = (if r.Slice ∧ ∃ e ∈ r.end', e < t then (r.nodes : Int) else 0) -
        if r.Future ∧ r.ActiveUpTo t then (r.nodes : Int) else 0 := by
  obtain ⟨pid, eid, start, end', type, nodes⟩ := r
  unfold worst Reservation.events addReservation
  cases eid with
  | some eid =>
    cases end' with
    | none => simp [Reservation.Future]
    | some e =>
      rcases lt_trichotomy e t with he | he | he
      · simp [he, he.ne, Event.effect, Reservation.Slice, Reservation.Future]
      · simp [he, Event.effect, decrease, Reservation.Future]
      · simp [not_lt.mpr he.le, he.ne', Reservation.Future]
  | none =>
    cases pid with
    | none => simp [Reservation.Slice, Reservation.Future]
    | some pid =>
      obtain ⟨s, hs, hlt⟩ := hr ⟨rfl, rfl⟩
      have hs : start = some s := hs
      subst hs
      cases end' with
      | none =>
        rcases lt_trichotomy s t with hst | hst | hst
        · simp [hst, hst.le, hst.ne, Event.effect, Reservation.Future, Reservation.ActiveUpTo]
        · simp [hst, Event.effect, decrease, Reservation.Future, Reservation.ActiveUpTo]
        · simp [not_lt.mpr hst.le, not_le.mpr hst, hst.ne', Reservation.ActiveUpTo]
      | some e =>
        have hlt : s < e := hlt e rfl
        rcases lt_trichotomy s t with hst | hst | hst
        · rcases lt_trichotomy e t with het | het | het
          · simp [hst, hst.le, hst.ne, het, het.ne, not_le.mpr het, Event.effect,
              Reservation.Slice, Reservation.ActiveUpTo]
          · subst het
            simp [hst, hst.le, hst.ne, Event.effect, decrease, Reservation.Future, Reservation.ActiveUpTo]
          · simp [hst, hst.le, hst.ne, het.le, not_lt.mpr het.le, het.ne', Event.effect,
              Reservation.Future, Reservation.ActiveUpTo]
        · have het : t < e := by omega
          simp [hst, het.le, not_lt.mpr het.le, het.ne', Event.effect, decrease,
            Reservation.Future, Reservation.ActiveUpTo]
        · have het : t < e := by omega
          simp [not_lt.mpr hst.le, not_le.mpr hst, hst.ne', not_lt.mpr het.le, het.ne', Reservation.ActiveUpTo]

theorem filter_timeline (p : Event → Bool) (l : List Reservation) :
    (timeline l).filter p = l.flatMap fun r => r.events.filter p := filter_flatMap

/-- `Feasible` says that after the events up to any time the free nodes are enough. -/
theorem feasible_iff (h : WellFormed l) : Feasible l ↔ ∀ t, 0 ≤ nodesOf Reservation.Available l +
      total Event.effect ((timeline l).filter fun e => e.t ≤ t) := by
  have htotal : ∀ t, total Event.effect ((timeline l).filter fun e => e.t ≤ t) =
      nodesOf (fun r => r.Slice ∧ ∃ e ∈ r.end', e ≤ t) l - nodesOf (fun r => r.Future ∧ r.ActiveAt t) l := by
    intro t
    rw [filter_timeline]
    have hint := h.interval
    clear h
    induction l with
    | nil => rfl
    | cons r l ih =>
      rw [flatMap_cons, total_append, total_events r t (hint r (by simp)),
        ih fun r' hr' => hint r' (mem_cons_of_mem _ hr'), nodesOf_cons, nodesOf_cons]
      omega
  unfold Feasible
  simp only [htotal]
  exact forall_congr' fun t => by omega

theorem feasibleUpToEnds_iff (h : WellFormed l) :
    FeasibleUpToEnds l ↔ ∀ t, 0 ≤ nodesOf Reservation.Available l + worst Event.t Event.effect (timeline l) t := by
  have hworst : ∀ t, worst Event.t Event.effect (timeline l) t =
      nodesOf (fun r => r.Slice ∧ ∃ e ∈ r.end', e < t) l - nodesOf (fun r => r.Future ∧ r.ActiveUpTo t) l := by
    intro t
    have hint := h.interval
    clear h
    unfold timeline
    induction l with
    | nil => rfl
    | cons r l ih =>
      rw [flatMap_cons, worst_append, worst_events r t (hint r (by simp)),
        ih fun r' hr' => hint r' (mem_cons_of_mem _ hr'), nodesOf_cons, nodesOf_cons]
      omega
  unfold FeasibleUpToEnds
  simp only [hworst]
  exact forall_congr' fun t => by omega

/-! ## Section 6: The verdict -/

theorem sortEvents_perm (l : List Event) : (sortEvents l).Perm l := sortByTime_perm l

theorem sorted_sortEvents (l : List Event) : Sorted Event.t (sortEvents l) := sorted_sortByTime l

theorem feasible_of_isFeasible (hwf : WellFormed l) (h : isFeasible l = true) : Feasible l := by
  rw [feasible_iff hwf]
  intro t
  have hup := ((isFeasible_iff_neverNegative hwf).mp h).upTo (sorted_sortEvents _) (nodesOf_nonneg l) t
  rw [total_perm ((sortEvents_perm _).filter _)] at hup
  exact hup

theorem isFeasible_of_feasibleUpToEnds (hwf : WellFormed l) (h : FeasibleUpToEnds l) : isFeasible l = true := by
  rw [isFeasible_iff_neverNegative hwf]
  apply neverNegative_of_worst (sorted_sortEvents _)
  intro t
  rw [worst_perm (sortEvents_perm _)]
  exact (feasibleUpToEnds_iff hwf).mp h t

/-- The records with the reservations that start at a time listed first. -/
def startingFirst (t : Int) (l : List Reservation) : List Reservation :=
  l.filter (fun r => r.Future ∧ r.start = some t) ++ l.filter fun r => !decide (r.Future ∧ r.start = some t)

theorem startingFirst_perm (t : Int) (l : List Reservation) : (startingFirst t l).Perm l :=
  filter_append_perm _ _

/-- In that order the starts of the time come before its ends. -/
theorem worst_startingFirst (hwf : WellFormed l) (t : Int) (h : isFeasible (startingFirst t l) = true) :
    0 ≤ nodesOf Reservation.Available l + worst Event.t Event.effect (timeline l) t := by
  have hperm := startingFirst_perm t l
  have hwf' := hwf.perm hperm
  have hsplit : (sortEvents (timeline (startingFirst t l))).filter (fun e => e.t = t) =
      (timeline (l.filter fun r => r.Future ∧ r.start = some t)).filter (fun e => e.t = t) ++
        (timeline (l.filter fun r => !decide (r.Future ∧ r.start = some t))).filter
          fun e => e.t = t := by
    unfold sortEvents
    rw [filter_sortByTime]
    unfold startingFirst timeline
    rw [flatMap_append, filter_append]
  have hdown : ∀ e ∈ (timeline (l.filter fun r => r.Future ∧ r.start = some t)).filter
      (fun e => e.t = t), e.effect ≤ 0 := by
    intro e he
    rw [mem_filter, mem_flatMap] at he
    obtain ⟨⟨r, hr, her⟩, het⟩ := he
    have het : e.t = t := of_decide_eq_true het
    obtain ⟨hrl, hr⟩ := mem_filter.mp hr
    obtain ⟨hfuture, hstart⟩ := of_decide_eq_true hr
    rcases mem_events her with ⟨_, _, heff⟩ | ⟨hend, _⟩
    · omega
    · -- it would start and end at the same time
      obtain ⟨s, hs, hlt⟩ := hwf.interval r hrl hfuture
      have hs : r.start = some s := hs
      have := hlt e.t hend
      rw [hs, Option.some.injEq] at hstart
      omega
  have hup : ∀ e ∈ (timeline (l.filter fun r => !decide (r.Future ∧ r.start = some t))).filter
      (fun e => e.t = t), 0 ≤ e.effect := by
    intro e he
    rw [mem_filter, mem_flatMap] at he
    obtain ⟨⟨r, hr, her⟩, het⟩ := he
    have het : e.t = t := of_decide_eq_true het
    obtain ⟨hrl, hr⟩ := mem_filter.mp hr
    rcases mem_events her with ⟨hfuture, hs, _⟩ | ⟨_, heff⟩
    · have hs : r.start = some e.t := hs
      have hr : ¬ (r.Future ∧ r.start = some t) := of_decide_eq_false (Bool.not_eq_true' _ ▸ hr)
      exact absurd ⟨hfuture, het ▸ hs⟩ hr
    · omega
  have hworst := ((isFeasible_iff_neverNegative hwf').mp h).worst (sorted_sortEvents _)
    (nodesOf_nonneg _) hsplit hdown hup
  rw [nodesOf_perm hperm, worst_perm (sortEvents_perm _),
    worst_perm (hperm.flatMap_right Reservation.events)] at hworst
  exact hworst

/-- The verdict is right in every order of the records exactly if the nodes, where
    they suffice at all, also suffice with every one in use up to the end. -/
theorem isFeasible_exact_iff {l : List Reservation} (hwf : WellFormed l) :
    (∀ l', l'.Perm l → (isFeasible l' = true ↔ Feasible l)) ↔ (Feasible l → FeasibleUpToEnds l) := by
  constructor
  · intro hexact hfeas
    rw [feasibleUpToEnds_iff hwf]
    intro t
    apply worst_startingFirst hwf
    exact (hexact _ (startingFirst_perm t l)).mpr hfeas
  · intro hends l' hperm
    constructor
    · intro h
      exact (feasible_perm hperm).mp (feasible_of_isFeasible (hwf.perm hperm) h)
    · intro h
      have hends : FeasibleUpToEnds l' := by
        have hl := hends h
        unfold FeasibleUpToEnds at hl ⊢
        simpa only [nodesOf_perm hperm] using hl
      exact isFeasible_of_feasibleUpToEnds (hwf.perm hperm) hends

/-- One node, which is reserved from 10 to 20 and from 0 to 10. -/
def touching : List Reservation :=
  [.create "later" (some 10) (some 20) "pc3000" 1, .free "pc3000" 1,
    .create "sooner" (some 0) (some 10) "pc3000" 1]

theorem wellFormed_touching : WellFormed touching where
  interval := by
    intro r hr hfuture
    simp only [touching, mem_cons, not_mem_nil, or_false] at hr
    rcases hr with rfl | rfl | rfl
    · exact ⟨10, rfl, fun e he => by cases he; decide⟩
    · exact absurd hfuture (by decide)
    · exact ⟨0, rfl, fun e he => by cases he; decide⟩
  available := by decide

theorem isFeasible_exact_iff_touching : (∀ l', l'.Perm touching → (isFeasible l' = true ↔ Feasible touching)) ↔
      (Feasible touching → FeasibleUpToEnds touching) :=
  isFeasible_exact_iff wellFormed_touching

theorem feasible_touching : Feasible touching := by
  rw [feasible_iff wellFormed_touching]
  intro t
  have hav : nodesOf Reservation.Available touching = 1 := rfl
  have htl : timeline touching = [⟨some "later", 10, 0, 1⟩, ⟨some "later", 20, 0, -1⟩,
      ⟨some "sooner", 0, 0, 1⟩, ⟨some "sooner", 10, 0, -1⟩] := rfl
  rw [hav, htl]
  simp only [filter_cons, filter_nil]
  split <;> split <;> split <;> simp_all [Event.effect]

/-- The node is free for the second project when the first one leaves, but its
    reservation comes first on the timeline if it is listed first. -/
theorem isFeasible_touching : ¬ ∀ l, WellFormed l → ∀ l', l'.Perm l → (isFeasible l' = true ↔ Feasible l) := by
  intro h
  have hgood := (h touching wellFormed_touching touching (List.Perm.refl _)).mpr feasible_touching
  have hfirst : startingFirst 10 touching = touching := by decide
  have hworst := worst_startingFirst wellFormed_touching 10 (hfirst ▸ hgood)
  exact absurd hworst (by decide)

end Emulab.Db
