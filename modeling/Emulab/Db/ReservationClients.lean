import Emulab.Db.Reservation
import Emulab.Lib.Machine

/-! # Concurrent changes to reservations

  Clients check a booking or a longer slice against what they have read, and
  write it only if the version of the reservations has not changed since. What
  a client reads of a node type it keeps in a cache.
-/

namespace Emulab.Db

open Machine Function List Option

/-! ## Section 1: The database -/

/-- The `pid` and the `eid` of an experiment. -/
abbrev Expt := String × String

/-- A row of the query over the nodes, which groups them by experiment. -/
structure NodeGroup where
  type : String
  count : Nat
  expt : Option Expt
  /-- The time of the swap plus the autoswap timeout. -/
  (end' : Option Int)
  autoswap : Bool
  nextReserve : Option String
deriving DecidableEq, Repr

/-- A slice, by its experiment. Its expiration is in the `Store`. -/
structure Slice where
  expt : Expt
  lockdown : Bool
deriving DecidableEq, Repr

/-- The tables that stay as they are. -/
structure Tables where
  groups : List NodeGroup
  grouped : groups.Pairwise fun g g' => ¬ (g.type = g'.type ∧ g.expt = g'.expt)
  slices : List Slice

def Tables.slice (T : Tables) (expt : Expt) : Option Slice :=
  T.slices.find? fun s => s.expt = expt

/-- A row of `future_reservations`, or what is to become one. `reserve` refuses
    a reservation that does not end after its start. -/
structure Booking where
  pid : String
  start : Int
  (end' : Int)
  type : String
  nodes : Nat
  interval : start < end'

/-- The tables that change. -/
structure Store where
  expires : Expt → Int
  futureReservations : List Booking
  version : Nat

def Booking.reservation (b : Booking) : Reservation :=
  .create b.pid (some b.start) (some b.end') b.type b.nodes

/-- The body of the first loop of `LookupAll`. -/
def lookupGroup (T : Tables) (expires : Expt → Int) (g : NodeGroup) : Option Reservation :=
  -- a node with an outstanding next_reserve is treated as if it did not exist
  if g.nextReserve.isSome then none
  else match g.expt with
  | some expt =>
    match T.slice expt with
    | some slice =>
      if slice.lockdown then none
      else some (.createImmediate expt.1 expt.2 (some (expires expt)) g.type g.count)
    | none =>
      -- without autoswap the nodes are assumed not to come back
      if g.autoswap then some (.createImmediate expt.1 expt.2 g.end' g.type g.count) else none
  | none => some (.free g.type g.count)

/-- The first query of `LookupAll`. -/
def lookupNodes (T : Tables) (expires : Expt → Int) (type : String) : List Reservation :=
  (T.groups.filter fun g => g.type = type).filterMap (lookupGroup T expires)

/-- The second query of `LookupAll`. -/
def lookupFuture (futureReservations : List Booking) (type : String) : List Reservation :=
  (futureReservations.filter fun b => b.type = type).map Booking.reservation

/-- What `LookupAll` returns of a type when it is not in the cache. -/
def lookupAll (T : Tables) (store : Store) (type : String) : List Reservation :=
  lookupNodes T store.expires type ++ lookupFuture store.futureReservations type

/-! ## Section 2: The clients -/

/-- What a client wants. -/
inductive Job where
  | reserve (res : Booking)
  | extendSlice (expt : Expt) (newExpire : Int)

/-- The types whose nodes are needed. -/
def Job.types (T : Tables) : Job → List String
  | .reserve res => [res.type]
  | .extendSlice expt _ => ((T.groups.filter fun g => g.expt = some expt).map NodeGroup.type).dedup

/-- The loop of `ExtendSlice` over the records of a type. -/
def setEnd (expt : Expt) (newExpire : Int) : List Reservation → List Reservation
  | [] => []
  | res :: reservations =>
    if res.pid = some expt.1 ∧ res.eid = some expt.2 then
      { res with end' := some newExpire } :: reservations
    else
      res :: setEnd expt newExpire reservations

/-- The list that is checked. It is the cached list itself that is changed. -/
def Job.consider : Job → List Reservation → List Reservation
  | .reserve res, reservations => reservations ++ [res.reservation]
  | .extendSlice expt newExpire, reservations => setEnd expt newExpire reservations

/-- `Book` and `SetExpiration`. -/
def Job.write : Job → Store → Store
  | .reserve res, store =>
    { store with futureReservations := store.futureReservations ++ [res] }
  | .extendSlice expt newExpire, store =>
    { store with expires := update store.expires expt newExpire }

inductive Pc where
  | idle
  | getVersion (job : Job)
  /-- The types are still to be checked; if there are none, the transaction is next. -/
  | lookup (job : Job) (version : Nat) (types : List String)
  /-- Between the two queries for a type. -/
  | lookupFuture (job : Job) (version : Nat) (type : String) (types : List String)
      (reservations : List Reservation)
  | update (job : Job)
  | endTransaction (job : Job)

structure ReservationClient where
  pc : Pc
  cache : String → Option (List Reservation)

/-- The database, who has locked the tables `future_reservations` and
    `reservation_version`, and the clients. -/
structure Sys where
  store : Store
  lock : Option Nat
  clients : Nat → ReservationClient

/-- What a client does next. -/
inductive Action where
  | start (job : Job)
  | getVersion
  | lookup
  | lookupFuture
  | beginTransaction
  | update
  | endTransaction
  | flushAll

def Sys.setClient (s : Sys) (c : Nat) (client : ReservationClient) : Sys :=
  { s with clients := update s.clients c client }

@[simp] theorem setClient_self (s : Sys) (c : Nat) (client : ReservationClient) :
    (s.setClient c client).clients c = client := by
  simp [Sys.setClient]

@[simp] theorem setClient_ne (s : Sys) {c c' : Nat} (client : ReservationClient) (h : c' ≠ c) :
    (s.setClient c client).clients c' = s.clients c' := by
  simp [Sys.setClient, h]

/-- Does a client ask for something that it has to check? `reserve` always does,
    `ExtendSlice` only if the slice is to expire later. -/
def Job.Admissible (T : Tables) (store : Store) : Job → Bool
  | .reserve _ => true
  | .extendSlice expt newExpire => (T.slice expt).isSome && store.expires expt < newExpire

/-- The records of a type go into the cache as they are checked. -/
def ReservationClient.check (client : ReservationClient) (job : Job) (version : Nat)
    (type : String) (types : List String) (reservations : List Reservation) : ReservationClient :=
  let reservations := job.consider reservations
  { pc := if isFeasible reservations then .lookup job version types else .idle
    cache := update client.cache type (some reservations) }

/-- A step of a client. It waits where the tables are locked by another one. -/
def step (T : Tables) (s : Sys) (ca : Nat × Action) : Option Sys :=
  let c := ca.1
  let client := s.clients c
  match ca.2, client.pc with
  | .start job, .idle =>
    if job.Admissible T s.store then some (s.setClient c { client with pc := .getVersion job })
    else none
  | .getVersion, .getVersion job =>
    if s.lock = none then
      some (s.setClient c { client with pc := .lookup job s.store.version (job.types T) })
    else none
  | .lookup, .lookup job version (type :: types) =>
    match client.cache type with
    | some reservations => some (s.setClient c (client.check job version type types reservations))
    | none =>
      let reservations := lookupNodes T s.store.expires type
      some (s.setClient c { client with pc := .lookupFuture job version type types reservations })
  | .lookupFuture, .lookupFuture job version type types reservations =>
    if s.lock = none then
      let reservations := reservations ++ lookupFuture s.store.futureReservations type
      some (s.setClient c (client.check job version type types reservations))
    else none
  | .beginTransaction, .lookup job version [] =>
    if s.lock = none then
      if version ≠ s.store.version then
        -- concurrent modifications: the operation is retried
        some (s.setClient c { client with pc := .getVersion job })
      else some { s.setClient c { client with pc := .update job } with lock := some c }
    else none
  | .update, .update job =>
    let cache := match job with
      | .reserve res => update client.cache res.type none
      | .extendSlice _ _ => client.cache
    some { s.setClient c { pc := .endTransaction job, cache := cache } with
      store := job.write s.store }
  | .endTransaction, .endTransaction _ =>
    some { s.setClient c { client with pc := .idle } with
      store := { s.store with version := s.store.version + 1 }, lock := none }
  | .flushAll, .idle => some (s.setClient c { client with cache := fun _ => none })
  | _, _ => none

/-! ## Section 3: What is read is well formed -/

variable {T : Tables} {store : Store}

variable {expires : Expt → Int}

theorem lookupGroup_expt {g : NodeGroup} {r : Reservation} (h : lookupGroup T expires g = some r) :
    r.pid = g.expt.map Prod.fst ∧ r.eid = g.expt.map Prod.snd := by
  unfold lookupGroup at h
  split at h
  · cases h
  · split at h
    · next expt hexpt =>
      rw [hexpt]
      split at h
      · split at h
        · cases h
        · cases h
          exact ⟨rfl, rfl⟩
      · split at h
        · cases h
          exact ⟨rfl, rfl⟩
        · cases h
    · next hexpt =>
      rw [hexpt]
      cases h
      exact ⟨rfl, rfl⟩

variable {type : String}

theorem not_future_of_lookupNodes {r : Reservation} (h : r ∈ lookupNodes T expires type) : ¬ r.Future := by
  obtain ⟨g, _, hg⟩ := mem_filterMap.mp h
  obtain ⟨hpid, heid⟩ := lookupGroup_expt hg
  rintro ⟨hnone, hsome⟩
  rw [heid, map_eq_none_iff] at hnone
  rw [hpid, hnone] at hsome
  cases hsome

theorem future_of_lookupFuture {future : List Booking} {r : Reservation}
    (h : r ∈ lookupFuture future type) : ∃ b ∈ future, b.type = type ∧ r = b.reservation := by
  obtain ⟨b, hb, rfl⟩ := List.mem_map.mp h
  obtain ⟨hmem, htype⟩ := mem_filter.mp hb
  exact ⟨b, hmem, of_decide_eq_true htype, rfl⟩

theorem lookupNodes_distinct (T : Tables) (expires : Expt → Int) (type : String) :
    (lookupNodes T expires type).Pairwise fun r r' => ¬ (r.pid = r'.pid ∧ r.eid = r'.eid) := by
  have hgroups : (T.groups.filter fun g => g.type = type).Pairwise
      fun g g' => g.expt ≠ g'.expt := by
    apply (T.grouped.filter _).imp_of_mem
    intro g g' hg hg' hne heq
    have htype : g.type = type := of_decide_eq_true (mem_filter.mp hg).2
    have htype' : g'.type = type := of_decide_eq_true (mem_filter.mp hg').2
    exact hne ⟨htype.trans htype'.symm, heq⟩
  apply hgroups.filterMap
  intro g g' hne r hr r' hr' heq
  obtain ⟨hpid, heid⟩ := lookupGroup_expt hr
  obtain ⟨hpid', heid'⟩ := lookupGroup_expt hr'
  rw [hpid, hpid', heid, heid'] at heq
  apply hne
  cases hg : g.expt <;> cases hg' : g'.expt <;> simp_all [Prod.ext_iff]

theorem wellFormed_lookupAll (T : Tables) (store : Store) (type : String) :
    WellFormed (lookupAll T store type) where
  interval := by
    intro r hr hfuture
    rcases mem_append.mp hr with hr | hr
    · exact absurd hfuture (not_future_of_lookupNodes hr)
    · obtain ⟨b, _, _, rfl⟩ := future_of_lookupFuture hr
      refine ⟨b.start, rfl, ?_⟩
      intro e he
      obtain rfl : b.end' = e := some.inj he
      exact b.interval
  available := by
    have hfuture : (lookupFuture store.futureReservations type).filter (fun r => decide r.Available) = [] := by
      rw [filter_eq_nil_iff]
      intro r hr
      obtain ⟨b, _, _, rfl⟩ := future_of_lookupFuture hr
      simp [Booking.reservation, Reservation.create, Reservation.Available]
    unfold lookupAll
    rw [filter_append, hfuture, append_nil]
    have hdistinct := (lookupNodes_distinct T store.expires type).filter
      fun r => decide r.Available
    have hav : ∀ r ∈ (lookupNodes T store.expires type).filter (fun r => decide r.Available), r.Available := by
      intro r hr
      exact of_decide_eq_true (mem_filter.mp hr).2
    generalize (lookupNodes T store.expires type).filter (fun r => decide r.Available) = l at hdistinct hav
    match l, hdistinct, hav with
    | [], _, _ => exact Nat.zero_le _
    | [_], _, _ => exact le_rfl
    | r :: r' :: _, hdistinct, hav =>
      obtain ⟨heid, hpid⟩ := hav r (by simp)
      obtain ⟨heid', hpid'⟩ := hav r' (by simp)
      have hne := (pairwise_cons.mp hdistinct).1 r' (by simp)
      exact absurd ⟨hpid.trans hpid'.symm, heid.trans heid'.symm⟩ hne

/-! ## Section 4: What is written -/

variable {newExpire : Int}

theorem setEnd_eq_self {expt : Expt} {l : List Reservation}
    (h : ∀ r ∈ l, ¬ (r.pid = some expt.1 ∧ r.eid = some expt.2)) : setEnd expt newExpire l = l := by
  induction l with
  | nil => rfl
  | cons r l ih =>
    unfold setEnd
    rw [if_neg (h r (by simp)), ih fun r' hr' => h r' (mem_cons_of_mem _ hr')]

theorem setEnd_append_of_not {expt : Expt} {l l' : List Reservation}
    (h : ∀ r ∈ l', ¬ (r.pid = some expt.1 ∧ r.eid = some expt.2)) :
    setEnd expt newExpire (l ++ l') = setEnd expt newExpire l ++ l' := by
  induction l with
  | nil => exact setEnd_eq_self h
  | cons r l ih =>
    rw [cons_append]
    unfold setEnd
    rw [ih]
    split <;> rfl

/-- Where an experiment has one record, only this one changes. -/
theorem setEnd_eq_map {expt : Expt} {l : List Reservation}
    (h : l.Pairwise fun r r' => ¬ (r.pid = r'.pid ∧ r.eid = r'.eid)) :
    setEnd expt newExpire l = l.map fun r =>
      if r.pid = some expt.1 ∧ r.eid = some expt.2 then { r with end' := some newExpire } else r := by
  induction l with
  | nil => rfl
  | cons r l ih =>
    obtain ⟨hall, hrest⟩ := pairwise_cons.mp h
    unfold setEnd
    rw [map_cons]
    by_cases hr : r.pid = some expt.1 ∧ r.eid = some expt.2
    · have hnot : ∀ r' ∈ l, ¬ (r'.pid = some expt.1 ∧ r'.eid = some expt.2) := by
        intro r' hr' heq
        exact hall r' hr' ⟨hr.1.trans heq.1.symm, hr.2.trans heq.2.symm⟩
      rw [if_pos hr, if_pos hr, ← ih hrest, setEnd_eq_self hnot]
    · rw [if_neg hr, if_neg hr, ih hrest]

theorem lookupGroup_update {expt : Expt} {g : NodeGroup} (hslice : (T.slice expt).isSome) :
    lookupGroup T (update expires expt newExpire) g =
      if g.expt = some expt then (lookupGroup T expires g).map fun r => { r with end' := some newExpire }
      else lookupGroup T expires g := by
  unfold lookupGroup
  by_cases hnext : g.nextReserve.isSome
  · simp [hnext]
  · cases hg : g.expt with
    | none => simp [hnext]
    | some expt' =>
      by_cases heq : expt' = expt
      · subst heq
        obtain ⟨slice, hs⟩ := isSome_iff_exists.mp hslice
        by_cases hlock : slice.lockdown
        · simp [hnext, hs, hlock]
        · simp [hnext, hs, hlock, Reservation.createImmediate]
      · simp [hnext, heq]

theorem lookupNodes_update {expt : Expt} (type : String) (hslice : (T.slice expt).isSome) :
    lookupNodes T (update expires expt newExpire) type = setEnd expt newExpire (lookupNodes T expires type) := by
  rw [setEnd_eq_map (lookupNodes_distinct T expires type)]
  unfold lookupNodes
  rw [map_filterMap]
  congr 1
  funext g
  rw [lookupGroup_update hslice]
  cases hg : lookupGroup T expires g with
  | none => simp
  | some r =>
    obtain ⟨hpid, heid⟩ := lookupGroup_expt hg
    have hiff : g.expt = some expt ↔ r.pid = some expt.1 ∧ r.eid = some expt.2 := by
      rw [hpid, heid]
      cases g.expt <;> simp [Prod.ext_iff]
    by_cases heq : g.expt = some expt
    · rw [if_pos heq, map_some, map_some, if_pos (hiff.mp heq)]
    · rw [if_neg heq, map_some, if_neg fun h => heq (hiff.mpr h)]

/-- Only slices are extended. -/
def Job.Valid (T : Tables) : Job → Prop
  | .reserve _ => True
  | .extendSlice expt _ => (T.slice expt).isSome

variable {job : Job}

theorem Job.Admissible.valid (h : job.Admissible T store = true) : job.Valid T := by
  cases job with
  | reserve res => trivial
  | extendSlice expt newExpire =>
    unfold Job.Admissible at h
    rw [Bool.and_eq_true] at h
    exact h.1

theorem lookupFuture_append (future : List Booking) (res : Booking) (type : String) :
    lookupFuture (future ++ [res]) type = lookupFuture future type ++
      if res.type = type then [res.reservation] else [] := by
  unfold lookupFuture
  rw [filter_append, map_append]
  by_cases h : res.type = type
  · simp [h]
  · simp [h]

/-- What is checked is what will be read after the change. -/
theorem consider_lookupAll (hvalid : job.Valid T) (htype : type ∈ job.types T) :
    job.consider (lookupAll T store type) = lookupAll T (job.write store) type := by
  cases job with
  | reserve res =>
    have htype : type = res.type := mem_singleton.mp htype
    show lookupAll T store type ++ [res.reservation] =
      lookupNodes T store.expires type ++ lookupFuture (store.futureReservations ++ [res]) type
    rw [lookupFuture_append, if_pos htype.symm, ← append_assoc]
    rfl
  | extendSlice expt newExpire =>
    show setEnd expt newExpire (lookupAll T store type) =
      lookupNodes T (update store.expires expt newExpire) type ++ lookupFuture store.futureReservations type
    rw [lookupNodes_update type hvalid]
    apply setEnd_append_of_not
    intro r hr heq
    obtain ⟨b, _, _, rfl⟩ := future_of_lookupFuture hr
    cases heq.2

theorem lookupAll_write_of_not_mem (hvalid : job.Valid T) (htype : type ∉ job.types T) :
    lookupAll T (job.write store) type = lookupAll T store type := by
  cases job with
  | reserve res =>
    have htype : ¬ res.type = type := fun h => htype (mem_singleton.mpr h.symm)
    show lookupNodes T store.expires type ++ lookupFuture (store.futureReservations ++ [res]) type =
      _
    rw [lookupFuture_append, if_neg htype, append_nil]
    rfl
  | extendSlice expt newExpire =>
    show lookupNodes T (update store.expires expt newExpire) type ++ lookupFuture store.futureReservations type = _
    rw [lookupNodes_update type hvalid, setEnd_eq_self]
    · rfl
    · -- the experiment has no nodes of this type
      intro r hr heq
      obtain ⟨g, hg, hr⟩ := mem_filterMap.mp hr
      obtain ⟨hmem, hgt⟩ := mem_filter.mp hg
      obtain ⟨hpid, heid⟩ := lookupGroup_expt hr
      have hexpt : g.expt = some expt := by
        rw [hpid, heid] at heq
        cases hge : g.expt <;> simp_all [Prod.ext_iff]
      apply htype
      show type ∈ ((T.groups.filter fun g => g.expt = some expt).map NodeGroup.type).dedup
      rw [mem_dedup, List.mem_map]
      exact ⟨g, mem_filter.mpr ⟨hmem, decide_eq_true hexpt⟩, of_decide_eq_true hgt⟩

/-! ## Section 5: The invariant -/

/-- The types that are not left to check allow the change. -/
def Checked (T : Tables) (store : Store) (job : Job) (types : List String) : Prop :=
  ∀ type ∈ job.types T, type ∉ types → Feasible (lookupAll T (job.write store) type)

/-- What a client has found out holds as long as the version is the one it has read and all is quiet: no
    client is between its change and the end of its transaction. -/
def PcOk (T : Tables) (s : Sys) (quiet : Prop) (c : Nat) : Pc → Prop
  | .idle => True
  | .getVersion job => job.Valid T
  | .lookup job version types =>
    job.Valid T ∧ version ≤ s.store.version ∧ types ⊆ job.types T ∧
      (version = s.store.version → quiet → Checked T s.store job types)
  | .lookupFuture job version type types reservations =>
    job.Valid T ∧ version ≤ s.store.version ∧ type :: types ⊆ job.types T ∧
      (version = s.store.version → quiet → reservations = lookupNodes T s.store.expires type ∧
          Checked T s.store job (type :: types))
  | .update job => job.Valid T ∧ s.lock = some c ∧ Checked T s.store job []
  | .endTransaction _ => s.lock = some c

/-- No client is between its change and the end of its transaction. -/
def Sys.Quiet (s : Sys) : Prop := ∀ c job, (s.clients c).pc ≠ .endTransaction job

structure SysInv (T : Tables) (s : Sys) : Prop where
  feasible : ∀ type, Feasible (lookupAll T s.store type)
  pcs : ∀ c, PcOk T s s.Quiet c (s.clients c).pc

variable {s s' : Sys} {quiet quiet' : Prop} {c : Nat} {pc : Pc}

/-- Steps that leave the tables alone. -/
theorem PcOk.mono (h : PcOk T s quiet c pc) (hstore : s'.store = s.store)
    (hlock : s.lock = some c → s'.lock = some c) (hquiet : quiet' → quiet) : PcOk T s' quiet' c pc := by
  cases pc with
  | idle => trivial
  | getVersion job => exact h
  | lookup job version types =>
    obtain ⟨hvalid, hle, hsub, hok⟩ := h
    unfold PcOk
    rw [hstore]
    exact ⟨hvalid, hle, hsub, fun hv hq => hok hv (hquiet hq)⟩
  | lookupFuture job version type types reservations =>
    obtain ⟨hvalid, hle, hsub, hok⟩ := h
    unfold PcOk
    rw [hstore]
    exact ⟨hvalid, hle, hsub, fun hv hq => hok hv (hquiet hq)⟩
  | update job =>
    obtain ⟨hvalid, hl, hok⟩ := h
    unfold PcOk
    rw [hstore]
    exact ⟨hvalid, hlock hl, hok⟩
  | endTransaction job => exact hlock h

/-- Steps of the client that has the lock: what the others have found out is no longer relied on. -/
theorem PcOk.stale (h : PcOk T s quiet c pc) (hlock : s.lock ≠ some c) (hle : s.store.version ≤ s'.store.version)
    (hquiet : quiet' → s.store.version < s'.store.version) : PcOk T s' quiet' c pc := by
  cases pc with
  | idle => trivial
  | getVersion job => exact h
  | lookup job version types =>
    obtain ⟨hvalid, hv, hsub, _⟩ := h
    refine ⟨hvalid, hv.trans hle, hsub, fun heq hq => ?_⟩
    have := hquiet hq
    omega
  | lookupFuture job version type types reservations =>
    obtain ⟨hvalid, hv, hsub, _⟩ := h
    refine ⟨hvalid, hv.trans hle, hsub, fun heq hq => ?_⟩
    have := hquiet hq
    omega
  | update job => exact absurd h.2.1 hlock
  | endTransaction job => exact absurd h hlock

theorem SysInv.quiet_of_unlocked (h : SysInv T s) (hlock : s.lock = none) : s.Quiet := by
  intro c job hpc
  have hok := h.pcs c
  rw [hpc] at hok
  have hok : s.lock = some c := hok
  rw [hlock] at hok
  cases hok

variable {client : ReservationClient}

theorem SysInv.setClient (h : SysInv T s) (hold : ∀ job, (s.clients c).pc ≠ .endTransaction job)
    (hnew : PcOk T s s.Quiet c client.pc) : SysInv T (s.setClient c client) := by
  have hquiet : (s.setClient c client).Quiet → s.Quiet := by
    intro hq c' job
    by_cases hc : c' = c
    · rw [hc]
      exact hold job
    · have := hq c' job
      rwa [setClient_ne s client hc] at this
  refine ⟨h.feasible, fun c' => ?_⟩
  by_cases hc : c' = c
  · subst hc
    rw [setClient_self]
    exact hnew.mono rfl id hquiet
  · rw [setClient_ne s client hc]
    exact (h.pcs c').mono rfl id hquiet

theorem pcOk_check {version : Nat} {types : List String} {reservations : List Reservation} (hvalid : job.Valid T)
    (hle : version ≤ s.store.version) (hsub : type :: types ⊆ job.types T)
    (hread : version = s.store.version → quiet →
      reservations = lookupAll T s.store type ∧ Checked T s.store job (type :: types)) :
    PcOk T s quiet c (client.check job version type types reservations).pc := by
  unfold ReservationClient.check
  by_cases hfeas : isFeasible (job.consider reservations) = true
  · simp only [hfeas, if_true]
    refine ⟨hvalid, hle, fun t ht => hsub (mem_cons_of_mem _ ht), fun hv hq => ?_⟩
    obtain ⟨rfl, hchecked⟩ := hread hv hq
    intro t ht hnot
    by_cases heq : t = type
    · subst heq
      rw [consider_lookupAll hvalid ht] at hfeas
      exact feasible_of_isFeasible (wellFormed_lookupAll T _ t) hfeas
    · apply hchecked t ht
      rw [mem_cons]
      rintro (h | h)
      · exact heq h
      · exact hnot h
  · simp only [hfeas]
    trivial

/-- The type and the list that a step takes from the cache. -/
def Sys.cached (s : Sys) (ca : Nat × Action) : Option (String × List Reservation) :=
  match ca.2, (s.clients ca.1).pc with
  | .lookup, .lookup _ _ (type :: _) => ((s.clients ca.1).cache type).map fun l => (type, l)
  | _, _ => none

/-- A list that a client finds in its cache is what it would read now. -/
def Fresh (T : Tables) (s : Sys) (ca : Nat × Action) : Prop :=
  ∀ p ∈ s.cached ca, p.2 = lookupAll T s.store p.1

instance decidableFresh (T : Tables) (s : Sys) (ca : Nat × Action) : Decidable (Fresh T s ca) :=
  inferInstanceAs (Decidable (∀ p ∈ s.cached ca, p.2 = lookupAll T s.store p.1))

/-- The client that has the lock makes its change. -/
theorem SysInv.update (h : SysInv T s)
    (hpc : (s.clients c).pc = .update job) (hclient : client.pc = .endTransaction job) :
    SysInv T { s.setClient c client with store := job.write s.store } := by
  have hok := h.pcs c
  rw [hpc] at hok
  obtain ⟨hvalid, hlock, hchecked⟩ := hok
  refine ⟨fun type => ?_, fun c' => ?_⟩
  · by_cases htype : type ∈ job.types T
    · exact hchecked type htype not_mem_nil
    · show Feasible (lookupAll T (job.write s.store) type)
      rw [lookupAll_write_of_not_mem hvalid htype]
      exact h.feasible type
  · show PcOk T _ _ c' ((s.setClient c client).clients c').pc
    by_cases hc : c' = c
    · subst hc
      rw [setClient_self, hclient]
      exact hlock
    · have hversion : (job.write s.store).version = s.store.version := by
        cases job <;> rfl
      rw [setClient_ne s client hc]
      apply (h.pcs c').stale
      · rw [hlock]
        exact fun heq => hc (some.inj heq).symm
      · exact hversion.ge
      · -- the client itself is between its change and the end of its transaction
        intro hq
        refine absurd ?_ (hq c job)
        show ((s.setClient c client).clients c).pc = _
        rw [setClient_self, hclient]

theorem SysInv.endTransaction (h : SysInv T s)
    (hpc : (s.clients c).pc = .endTransaction job) (hclient : client.pc = .idle) :
    SysInv T { s.setClient c client with
      store := { s.store with version := s.store.version + 1 }, lock := none } := by
  have hlock := h.pcs c
  rw [hpc] at hlock
  have hlock : s.lock = some c := hlock
  refine ⟨fun type => h.feasible type, fun c' => ?_⟩
  show PcOk T _ _ c' ((s.setClient c client).clients c').pc
  by_cases hc : c' = c
  · subst hc
    rw [setClient_self, hclient]
    trivial
  · rw [setClient_ne s client hc]
    apply (h.pcs c').stale
    · rw [hlock]
      exact fun heq => hc (some.inj heq).symm
    · exact Nat.le_succ _
    · intro _
      exact Nat.lt_succ_self _

theorem SysInv.beginTransaction (h : SysInv T s)
    (hpc : (s.clients c).pc = .lookup job s.store.version []) (hlock : s.lock = none)
    (hclient : client.pc = .update job) : SysInv T { s.setClient c client with lock := some c } := by
  have hok := h.pcs c
  rw [hpc] at hok
  obtain ⟨hvalid, _, _, hchecked⟩ := hok
  refine ⟨h.feasible, fun c' => ?_⟩
  show PcOk T _ _ c' ((s.setClient c client).clients c').pc
  by_cases hc : c' = c
  · subst hc
    rw [setClient_self, hclient]
    exact ⟨hvalid, rfl, hchecked rfl (h.quiet_of_unlocked hlock)⟩
  · rw [setClient_ne s client hc]
    refine (h.pcs c').mono ?_ ?_ ?_
    · rfl
    · rw [hlock]
      intro heq
      cases heq
    · intro _
      exact h.quiet_of_unlocked hlock

theorem inv_step {ca : Nat × Action} (h : SysInv T s) (hfresh : Fresh T s ca)
    (hstep : step T s ca = some s') : SysInv T s' := by
  obtain ⟨c, a⟩ := ca
  unfold step at hstep
  simp only at hstep
  have hok := h.pcs c
  split at hstep
  · next job hpc =>
    -- start
    split at hstep
    · next hadm =>
      cases hstep
      refine h.setClient (by simp [hpc]) ?_
      exact Job.Admissible.valid hadm
    · cases hstep
  · next job hpc =>
    -- getVersion
    rw [hpc] at hok
    split at hstep
    · cases hstep
      refine h.setClient (by simp [hpc]) ⟨hok, le_rfl, List.Subset.refl _, ?_⟩
      intro _ _ type htype hnot
      exact absurd htype hnot
    · cases hstep
  · next job version type types hpc =>
    -- lookup
    rw [hpc] at hok
    obtain ⟨hvalid, hle, hsub, hchecked⟩ := hok
    split at hstep
    · next reservations hcache =>
      cases hstep
      refine h.setClient (by simp [hpc]) (pcOk_check hvalid hle hsub fun hv hq => ?_)
      refine ⟨?_, hchecked hv hq⟩
      exact hfresh (type, reservations) (by simp [Sys.cached, hpc, hcache])
    · cases hstep
      refine h.setClient (by simp [hpc]) ⟨hvalid, hle, hsub, fun hv hq => ?_⟩
      exact ⟨rfl, hchecked hv hq⟩
  · next job version type types reservations hpc =>
    -- lookupFuture
    rw [hpc] at hok
    obtain ⟨hvalid, hle, hsub, hread⟩ := hok
    split at hstep
    · cases hstep
      refine h.setClient (by simp [hpc]) (pcOk_check hvalid hle hsub fun hv hq => ?_)
      obtain ⟨rfl, hchecked⟩ := hread hv hq
      exact ⟨rfl, hchecked⟩
    · cases hstep
  · next job version hpc =>
    -- beginTransaction
    rw [hpc] at hok
    split at hstep
    · next hlock =>
      split at hstep
      · cases hstep
        exact h.setClient (by simp [hpc]) hok.1
      · next hv =>
        cases hstep
        rw [not_not.mp hv] at hpc
        exact h.beginTransaction hpc hlock rfl
    · cases hstep
  · next job hpc =>
    cases hstep
    exact h.update hpc rfl
  · next job hpc =>
    cases hstep
    exact h.endTransaction hpc rfl
  · next hpc =>
    -- flushAll
    cases hstep
    refine h.setClient (by simp [hpc]) ?_
    rw [hpc]
    trivial
  · cases hstep

/-! ## Section 6: Runs -/

/-- No client has done anything yet. -/
def Sys.init (store : Store) : Sys :=
  { store := store, lock := none, clients := fun _ => { pc := .idle, cache := fun _ => none } }

theorem sysInv_init (h : ∀ type, Feasible (lookupAll T store type)) : SysInv T (Sys.init store) :=
  ⟨h, fun _ => trivial⟩

/-- If no client finds an outdated list in its cache, all that is ever committed is feasible. -/
theorem feasible_of_run {T : Tables} {store : Store} {s : Sys} {steps : List (Nat × Action)}
    (hinit : ∀ type, Feasible (lookupAll T store type))
    (hfresh : Meets (step T) (Fresh T) (Sys.init store) steps)
    (hrun : run (step T) (Sys.init store) steps = some s) :
    ∀ type, Feasible (lookupAll T s.store type) :=
  (run_inv (SysInv T) (fun _ _ _ hinv hok hstep => inv_step hinv hok hstep) (sysInv_init hinit)
    hfresh hrun).feasible

theorem feasible_of_not_future {l : List Reservation} (h : ∀ r ∈ l, ¬ r.Future) : Feasible l := by
  intro t
  have hnone : nodesOf (fun r => r.Future ∧ r.ActiveAt t) l = 0 := by
    unfold nodesOf
    rw [filter_eq_nil_iff.mpr]
    · rfl
    · intro r hr hp
      exact h r hr (of_decide_eq_true hp).1
  rw [hnone]
  exact add_nonneg (nodesOf_nonneg l) (nodesOf_nonneg l)

/-- Two free nodes. -/
def twoNodes : Tables where
  groups :=
    [{ type := "pc3000", count := 2, expt := none, end' := none, autoswap := false,
       nextReserve := none }]
  grouped := by decide
  slices := []

def noReservations : Store := { expires := fun _ => 0, futureReservations := [], version := 0 }

theorem feasible_noReservations (type : String) : Feasible (lookupAll twoNodes noReservations type) := by
  apply feasible_of_not_future
  intro r hr
  unfold lookupAll at hr
  rw [show lookupFuture noReservations.futureReservations type = [] from rfl, append_nil] at hr
  exact not_future_of_lookupNodes hr

/-- Both nodes from 10 to 20. -/
def both : Booking :=
  { pid := "alpha", start := 10, end' := 20, type := "pc3000", nodes := 2, interval := by decide }

/-- One node at the same time. -/
def one : Booking :=
  { pid := "beta", start := 10, end' := 20, type := "pc3000", nodes := 1, interval := by decide }

/-- A client books without interruption. -/
def booking (c : Nat) (res : Booking) : List (Nat × Action) :=
  [(c, .start (.reserve res)), (c, .getVersion), (c, .lookup), (c, .lookupFuture),
    (c, .beginTransaction), (c, .update), (c, .endTransaction)]

theorem feasible_of_run_both : ∃ s, run (step twoNodes) (Sys.init noReservations) (booking 0 both) = some s ∧
      ∀ type, Feasible (lookupAll twoNodes s.store type) := by
  have hrun : (run (step twoNodes) (Sys.init noReservations) (booking 0 both)).isSome := by decide
  obtain ⟨s, hs⟩ := isSome_iff_exists.mp hrun
  exact ⟨s, hs, feasible_of_run feasible_noReservations (by decide) hs⟩

/-- A client checks one node and then waits; meanwhile another one books both. The
    first one retries, with its list of before in the cache. -/
def retry : List (Nat × Action) :=
  [(1, .start (.reserve one)), (1, .getVersion), (1, .lookup), (1, .lookupFuture)] ++ booking 0 both ++
    [(1, .beginTransaction), (1, .getVersion), (1, .lookup), (1, .beginTransaction), (1, .update),
      (1, .endTransaction)]

/-- With the list in the cache the retry goes through. -/
theorem not_feasible_retry : ¬ ∀ (T : Tables) (store : Store) (s : Sys)
    (steps : List (Nat × Action)), (∀ type, Feasible (lookupAll T store type)) →
    run (step T) (Sys.init store) steps = some s → ∀ type, Feasible (lookupAll T s.store type) := by
  intro h
  have hread : (run (step twoNodes) (Sys.init noReservations) retry).map
      (fun s => lookupAll twoNodes s.store "pc3000") =
        some [.free "pc3000" 2, both.reservation, one.reservation] := by decide
  obtain ⟨s, hs, hl⟩ := map_eq_some_iff.mp hread
  have hfeas := h _ _ s retry feasible_noReservations hs "pc3000"
  rw [hl] at hfeas
  exact absurd (hfeas 10) (by decide)

end Emulab.Db
