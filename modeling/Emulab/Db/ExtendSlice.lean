import Emulab.Db.ReservationClients

/-! # Extending a slice

  `ExtendSlice` checks a new expiration against the lists that `LookupAll`
  returns, and writes it if it is feasible. The lists are those in the cache,
  and what is checked is written into them. Here one process calls it; what
  others do meanwhile is only of interest if the transaction has to be retried.
-/

namespace Emulab.Db

open List

/-! ## Section 1: The call -/

structure Process where
  store : Store
  cache : String → Option (List Reservation)

/-- What `LookupAll` returns. -/
def Process.seen (T : Tables) (p : Process) (type : String) : List Reservation :=
  (p.cache type).getD (lookupAll T p.store type)

/-- The list of a type is put into the cache, or the one that is there is changed. -/
def Process.setCached (p : Process) (type : String) (reservations : List Reservation) : Process :=
  { p with cache := Function.update p.cache type (some reservations) }

/-- The arguments of `ExtendSlice`. -/
structure Extension where
  expt : Expt
  /-- `$slice->expires()`, as it was when the slice was looked up. -/
  sliceExpires : Int
  newExpire : Int
  impotent : Bool
  force : Bool

/-- What becomes of the two queries of `SetExpiration`. -/
inductive Queries where
  | succeed
  | updateFails
  | selectFails
deriving DecidableEq

def setExpiration (x : Extension) (queries : Queries) (store : Store) : Int × Store :=
  let write := (Job.extendSlice x.expt x.newExpire).write
  match queries with
  | .succeed => (0, write store)
  | .updateFails => (-1, store)
  | .selectFails => (-1, write store)

/-- What other processes do before the transaction begins. -/
structure OtherChange where
  change : Store → Store
  version_le : ∀ store, store.version ≤ (change store).version

/-- Where the loop over the types is. -/
structure Attempt where
  process : Process
  refused : Bool
  forced : Bool
  error : Option Shortage

def Extension.edit (x : Extension) (reservations : List Reservation) : List Reservation :=
  setEnd x.expt x.newExpire reservations

/-- `$force && !$impotent`. -/
def Extension.forcing (x : Extension) : Bool := x.force && !x.impotent

def checkTypes (T : Tables) (x : Extension) : List String → Attempt → Attempt
  | [], c => c
  | type :: types, c =>
    let reservations := x.edit (c.process.seen T type)
    let c := { c with process := c.process.setCached type reservations }
    match shortage reservations with
    | none => checkTypes T x types c
    | some error =>
      if x.forcing then checkTypes T x types { c with forced := true, error := some error }
      else { c with refused := true, error := some error }

/-- What the call returns, and leaves in `$$error`. -/
structure Extended where
  result : Int
  process : Process
  error : Option Shortage

/-- `SetExpiration` and `EndTransaction`, and the end of the call. -/
def commit (x : Extension) (queries : Queries) (c : Attempt) : Extended :=
  let store := (setExpiration x queries c.process.store).2
  { result := if c.forced then -1 else 0
    process := { c.process with store := { store with version := store.version + 1 } }
    error := c.error }

/-- The end of a turn: the call returns, or begins the transaction. -/
def afterCheck (x : Extension) (c : Attempt) (transaction : Attempt → Extended) : Extended :=
  if c.refused then ⟨-1, c.process, c.error⟩
  else if x.impotent then ⟨0, c.process, c.error⟩
  else transaction c

/-- `while( 1 )`. After the last change by others the transaction can begin. -/
def rounds (T : Tables) (x : Extension) (queries : Queries) (types : List String) :
    List OtherChange → Attempt → Extended
  | [], c => afterCheck x (checkTypes T x types c) (commit x queries)
  | other :: others, c =>
    afterCheck x (checkTypes T x types c) fun c' =>
      let c' := { c' with process := { c'.process with store := other.change c'.process.store } }
      -- reservations have been altered by a concurrent operation
      if c.process.store.version ≠ c'.process.store.version then rounds T x queries types others c'
      else commit x queries c'

/-- The types of the nodes that the experiment has. -/
def Extension.types (T : Tables) (x : Extension) : List String :=
  (Job.extendSlice x.expt x.newExpire).types T

def extendSlice (T : Tables) (x : Extension) (queries : Queries) (others : List OtherChange)
    (p : Process) : Extended :=
  if x.newExpire ≤ x.sliceExpires then
    if x.impotent then ⟨0, p, none⟩
    else
      let (result, store) := setExpiration x queries p.store
      ⟨result, { p with store := store }, none⟩
  else
    rounds T x queries (x.types T) others ⟨p, false, false, none⟩

/-! ## Section 2: The lists -/

/-- The same end can be written again. -/
@[simp] theorem edit_edit (x : Extension) (l : List Reservation) : x.edit (x.edit l) = x.edit l := by
  unfold Extension.edit
  induction l with
  | nil => rfl
  | cons r l ih =>
    by_cases h : r.pid = some x.expt.1 ∧ r.eid = some x.expt.2
    · simp [setEnd, h]
    · simp [setEnd, h, ih]

theorem seen_setCached_ne (T : Tables) (p : Process) {type t : String} (l : List Reservation)
    (h : t ≠ type) : (p.setCached type l).seen T t = p.seen T t := by
  unfold Process.seen Process.setCached
  dsimp only
  rw [Function.update_of_ne h]

theorem isFeasible_eq_false_iff {l : List Reservation} : isFeasible l = false ↔ ∃ s, shortage l = some s := by
  unfold isFeasible
  cases shortage l <;> simp

/-! ## Section 3: The loop over the types -/

/-- The types that the loop comes to, where `view` is what is seen of them. -/
def visited (x : Extension) (view : String → List Reservation) : List String → List String
  | [] => []
  | type :: types =>
    type :: if x.forcing || isFeasible (x.edit (view type)) then visited x view types else []

/-- There is a type whose nodes do not suffice. -/
def Lacking (x : Extension) (view : String → List Reservation) (types : List String) : Prop :=
  ∃ type ∈ types, isFeasible (x.edit (view type)) = false

variable {view : String → List Reservation} {types : List String}

/-- The loop comes to the end unless it refuses. -/
theorem visited_eq {x : Extension}
    (h : x.forcing = true ∨ ¬ Lacking x view types) : visited x view types = types := by
  induction types with
  | nil => rfl
  | cons type types ih =>
    have hgo : (x.forcing || isFeasible (x.edit (view type))) = true := by
      rcases h with h | h
      · simp [h]
      · cases hfeas : isFeasible (x.edit (view type)) with
        | true => simp
        | false => exact absurd ⟨type, mem_cons_self, hfeas⟩ h
    have hrest : x.forcing = true ∨ ¬ Lacking x view types := by
      refine h.imp_right fun h hlack => ?_
      obtain ⟨t, ht, hfeas⟩ := hlack
      exact h ⟨t, mem_cons_of_mem _ ht, hfeas⟩
    unfold visited
    rw [if_pos hgo, ih hrest]

theorem lacking_cons {x : Extension} {type : String} : Lacking x view (type :: types) ↔
      isFeasible (x.edit (view type)) = false ∨ Lacking x view types := by
  unfold Lacking
  rw [exists_mem_cons_iff]

theorem lacking_congr {x : Extension} {view view' : String → List Reservation}
    (h : ∀ t ∈ types, x.edit (view t) = x.edit (view' t)) : Lacking x view types ↔ Lacking x view' types := by
  unfold Lacking
  constructor
  · intro ⟨t, ht, hfeas⟩
    exact ⟨t, ht, h t ht ▸ hfeas⟩
  · intro ⟨t, ht, hfeas⟩
    exact ⟨t, ht, (h t ht).symm ▸ hfeas⟩

/-- What the loop over the types does: in the types that it comes to, the end is written. -/
structure ChecksTypes (x : Extension) (view : String → List Reservation) (types : List String)
    (c c' : Attempt) : Prop where
  store : c'.process.store = c.process.store
  cache : ∀ t, c'.process.cache t =
    if t ∈ visited x view types then some (x.edit (view t)) else c.process.cache t
  refused : c'.refused = true ↔ c.refused = true ∨ x.forcing = false ∧ Lacking x view types
  forced : c'.forced = true ↔ c.forced = true ∨ x.forcing = true ∧ Lacking x view types

variable {T : Tables} {x : Extension}

theorem checkTypes_spec (x : Extension) (hnodup : types.Nodup) {c : Attempt}
    (hview : ∀ t ∈ types, c.process.seen T t = view t) : ChecksTypes x view types c (checkTypes T x types c) := by
  induction types generalizing c with
  | nil =>
    constructor
    · rfl
    · intro t
      simp [visited, checkTypes]
    · simp [checkTypes, Lacking]
    · simp [checkTypes, Lacking]
  | cons type types ih =>
    obtain ⟨hnot, hnodup⟩ := nodup_cons.mp hnodup
    -- the lists of the types to come stay as they are
    have hnext (c₁ : Attempt) (hc₁ : c₁.process = c.process.setCached type (x.edit (view type))) :
        ChecksTypes x view types c₁ (checkTypes T x types c₁) := by
      apply ih hnodup
      intro t ht
      rw [hc₁, seen_setCached_ne T _ _ (ne_of_mem_of_not_mem ht hnot)]
      exact hview t (mem_cons_of_mem _ ht)
    have hcache (c₁ : Attempt) (hc₁ : c₁.process = c.process.setCached type (x.edit (view type)))
        (t : String) : (if t ∈ visited x view types then some (x.edit (view t))
          else c₁.process.cache t) =
        if t ∈ type :: visited x view types then some (x.edit (view t))
          else c.process.cache t := by
      rw [hc₁]
      unfold Process.setCached
      by_cases heq : t = type
      · subst heq
        simp
      · simp [heq]
    unfold checkTypes
    dsimp only
    rw [hview type mem_cons_self]
    cases hshort : shortage (x.edit (view type)) with
    | none =>
      have hfeas : isFeasible (x.edit (view type)) = true := by simp [isFeasible, hshort]
      obtain ⟨hstore, hcache', hrefused, hforced⟩ :=
        hnext { c with process := c.process.setCached type (x.edit (view type)) } rfl
      constructor
      · exact hstore
      · intro t
        have hvisited : visited x view (type :: types) = type :: visited x view types := by
          simp [visited, hfeas]
        rw [hvisited]
        exact (hcache' t).trans (hcache _ rfl t)
      · rw [hrefused, lacking_cons, hfeas]
        simp
      · rw [hforced, lacking_cons, hfeas]
        simp
    | some error =>
      have hfeas : isFeasible (x.edit (view type)) = false := isFeasible_eq_false_iff.mpr ⟨_, hshort⟩
      dsimp only
      by_cases hforcing : x.forcing = true
      · rw [if_pos hforcing]
        obtain ⟨hstore, hcache', hrefused, hforced⟩ := hnext
          { c with
            process := c.process.setCached type (x.edit (view type))
            forced := true
            error := some error } rfl
        constructor
        · exact hstore
        · intro t
          have hvisited : visited x view (type :: types) = type :: visited x view types := by
            simp [visited, hforcing]
          rw [hvisited]
          exact (hcache' t).trans (hcache _ rfl t)
        · rw [hrefused, hforcing]
          simp
        · rw [hforced, lacking_cons, hfeas, hforcing]
          simp
      · rw [if_neg hforcing]
        have hnot : x.forcing = false := by simpa using hforcing
        constructor
        · rfl
        · intro t
          have hvisited : visited x view (type :: types) = [type] := by simp [visited, hnot, hfeas]
          rw [hvisited]
          unfold Process.setCached
          by_cases heq : t = type
          · subst heq
            simp
          · simp [heq]
        · rw [lacking_cons, hfeas, hnot]
          simp
        · rw [hnot]
          simp

theorem ChecksTypes.seen {c c' : Attempt} (h : ChecksTypes x view types c c') (t : String) : c'.process.seen T t =
      if t ∈ visited x view types then x.edit (view t) else c.process.seen T t := by
  unfold Process.seen
  rw [h.cache t, h.store]
  split
  · rfl
  · rfl

/-! ## Section 4: The transaction -/

theorem version_commit (queries : Queries) (c : Attempt) :
    (commit x queries c).process.store.version = c.process.store.version + 1 := by
  unfold commit setExpiration Job.write
  cases queries <;> rfl

theorem result_commit (queries : Queries) (c : Attempt) : (commit x queries c).result ≠ 0 ↔ c.forced = true := by
  unfold commit
  cases c.forced <;> simp

theorem ChecksTypes.passed {c c' : Attempt} (h : ChecksTypes x view types c c')
    (hrefused : c.refused = false) (hok : x.forcing = true ∨ ¬ Lacking x view types)
    (hforced : c.forced = true → x.forcing = true ∧ Lacking x view types) :
    c'.refused = false ∧ (c'.forced = true ↔ Lacking x view types) ∧
      ∀ t ∈ types, c'.process.cache t = some (x.edit (view t)) := by
  refine ⟨?_, ?_, ?_⟩
  · rw [← Bool.not_eq_true, h.refused, hrefused]
    rcases hok with hforcing | hnot
    · simp [hforcing]
    · simp [hnot]
  · rw [h.forced]
    constructor
    · rintro (hc | hlack)
      · exact (hforced hc).2
      · exact hlack.2
    · intro hlack
      exact Or.inr ⟨hok.resolve_right (not_not.mpr hlack), hlack⟩
  · intro t ht
    rw [h.cache t, visited_eq hok, if_pos ht]

/-- A call that is not refused commits in the end, however often it has to retry: the lists that it has
    checked are in the cache, so that it comes to the same verdict. It fails if it was forced. -/
theorem rounds_commits (queries : Queries) (hnodup : types.Nodup)
    (himpotent : x.impotent = false) (others : List OtherChange) {c : Attempt}
    (hview : ∀ t ∈ types, c.process.seen T t = view t)
    (hrefused : c.refused = false) (hok : x.forcing = true ∨ ¬ Lacking x view types)
    (hforced : c.forced = true → x.forcing = true ∧ Lacking x view types) :
    ((rounds T x queries types others c).result ≠ 0 ↔ Lacking x view types) ∧
      c.process.store.version < (rounds T x queries types others c).process.store.version := by
  induction others generalizing c view with
  | nil =>
    have hcheck := checkTypes_spec x hnodup hview
    obtain ⟨hrefused', hforced', -⟩ := hcheck.passed hrefused hok hforced
    unfold rounds afterCheck
    rw [hrefused', himpotent]
    simp only [Bool.false_eq_true, if_false]
    rw [result_commit, version_commit, hcheck.store]
    exact ⟨hforced', Nat.lt_succ_self _⟩
  | cons other others ih =>
    have hcheck := checkTypes_spec x hnodup hview
    obtain ⟨hrefused', hforced', hcached⟩ := hcheck.passed hrefused hok hforced
    have hother := other.version_le c.process.store
    unfold rounds afterCheck
    rw [hrefused', himpotent]
    simp only [Bool.false_eq_true, if_false]
    split_ifs with hversion
    · -- the same lists are checked again, whatever has been changed
      have hagain : ∀ t ∈ types, x.edit (x.edit (view t)) = x.edit (view t) := fun t _ => edit_edit x (view t)
      have hlack : Lacking x (fun t => x.edit (view t)) types ↔ Lacking x view types := lacking_congr hagain
      obtain ⟨hresult, hlt⟩ := ih
        (c := { checkTypes T x types c with
          process := { (checkTypes T x types c).process with
            store := other.change (checkTypes T x types c).process.store } })
        (fun t ht => by simp [Process.seen, hcached t ht]) hrefused'
        (hok.imp_right (not_congr hlack).mpr)
        (fun hf => by
          have hl := hforced'.mp hf
          exact ⟨hok.resolve_right (not_not.mpr hl), hlack.mpr hl⟩)
      refine ⟨hresult.trans hlack, lt_of_le_of_lt ?_ hlt⟩
      dsimp only
      rw [hcheck.store]
      exact hother
    · rw [result_commit, version_commit]
      dsimp only
      rw [hcheck.store]
      exact ⟨hforced', Nat.lt_succ_of_le hother⟩

/-! ## Section 5: Refusals -/

/-- A call that fails or is impotent leaves what is seen and what is stored as it was. -/
def Atomic (T : Tables) (x : Extension) (p : Process) (r : Extended) : Prop :=
  x.impotent = true ∨ r.result ≠ 0 → (∀ type, r.process.seen T type = p.seen T type) ∧ r.process.store = p.store

/-- When it does. A shorter slice: the second query of `SetExpiration` does not fail on its
    own, unless the expiration has been the new one before. A longer one: if the call is
    impotent, or the nodes of a type do not suffice, it is not forced, and in the lists of
    all types up to the one that is refused the experiment ends at the new time already. -/
def LeavesNoTrace (T : Tables) (x : Extension) (queries : Queries) (p : Process) : Prop :=
  if x.newExpire ≤ x.sliceExpires then
    x.impotent = true ∨ queries ≠ .selectFails ∨ p.store.expires x.expt = x.newExpire
  else
    x.impotent = true ∨ Lacking x (p.seen T) (x.types T) → x.forcing = false ∧
        ∀ type ∈ visited x (p.seen T) (x.types T), x.edit (p.seen T type) = p.seen T type

theorem write_eq_self_iff {expt : Expt} {newExpire : Int} {store : Store} :
    (Job.extendSlice expt newExpire).write store = store ↔ store.expires expt = newExpire := by
  unfold Job.write
  constructor
  · intro h
    have hexpt := congrFun (congrArg Store.expires h) expt
    rw [← hexpt]
    simp
  · intro h
    have hsame : Function.update store.expires expt newExpire = store.expires := by
      rw [← h, Function.update_eq_self]
    simp only [hsame]

theorem atomic_shorter_iff (queries : Queries) (others : List OtherChange) (p : Process)
    (h : x.newExpire ≤ x.sliceExpires) :
    Atomic T x p (extendSlice T x queries others p) ↔ LeavesNoTrace T x queries p := by
  unfold Atomic LeavesNoTrace extendSlice
  rw [if_pos h, if_pos h]
  cases himpotent : x.impotent with
  | true => simp
  | false =>
    simp only [Bool.false_eq_true, if_false, false_or]
    cases queries with
    | succeed => simp [setExpiration]
    | updateFails => simp [setExpiration]
    | selectFails =>
      simp only [setExpiration, ne_eq, not_true_eq_false, false_or]
      rw [← write_eq_self_iff]
      constructor
      · intro hatomic
        exact (hatomic (by decide)).2
      · intro hsame _
        rw [hsame]
        exact ⟨fun _ => rfl, rfl⟩

/-- A turn that does not change the store is seen in the types that it has come to. -/
theorem ChecksTypes.unseen_iff {c c' : Attempt} (h : ChecksTypes x (c.process.seen T) types c c') :
    ((∀ type, c'.process.seen T type = c.process.seen T type) ∧ c'.process.store = c.process.store) ↔
    ∀ type ∈ visited x (c.process.seen T) types, x.edit (c.process.seen T type) = c.process.seen T type := by
  constructor
  · intro ⟨hseen, _⟩ type htype
    have := hseen type
    rwa [h.seen, if_pos htype] at this
  · intro hedit
    refine ⟨fun type => ?_, h.store⟩
    rw [h.seen]
    split_ifs with htype
    · exact hedit type htype
    · rfl

theorem rounds_returns (queries : Queries) (types : List String) (others : List OtherChange) {c : Attempt}
    (h : (checkTypes T x types c).refused = true ∨ x.impotent = true) :
    rounds T x queries types others c =
      ⟨if (checkTypes T x types c).refused then -1 else 0, (checkTypes T x types c).process,
        (checkTypes T x types c).error⟩ := by
  have hafter : ∀ go, afterCheck x (checkTypes T x types c) go =
      ⟨if (checkTypes T x types c).refused then -1 else 0, (checkTypes T x types c).process,
        (checkTypes T x types c).error⟩ := by
    intro go
    unfold afterCheck
    by_cases hrefused : (checkTypes T x types c).refused = true
    · rw [if_pos hrefused, if_pos hrefused]
    · rw [if_neg hrefused, if_neg hrefused, if_pos (h.resolve_left hrefused)]
  cases others with
  | nil => exact hafter _
  | cons other others => exact hafter _

theorem atomic_longer_iff (queries : Queries) (others : List OtherChange) (p : Process)
    (h : ¬ x.newExpire ≤ x.sliceExpires) :
    Atomic T x p (extendSlice T x queries others p) ↔ LeavesNoTrace T x queries p := by
  have hnodup : (x.types T).Nodup := nodup_dedup _
  have hcheck : ChecksTypes x (p.seen T) (x.types T) ⟨p, false, false, none⟩ _ :=
    checkTypes_spec x hnodup fun _ _ => rfl
  have hrefused : (checkTypes T x (x.types T) ⟨p, false, false, none⟩).refused = true ↔
      x.forcing = false ∧ Lacking x (p.seen T) (x.types T) := by
    rw [hcheck.refused]
    simp
  unfold Atomic LeavesNoTrace extendSlice
  rw [if_neg h, if_neg h]
  by_cases hreturn : (checkTypes T x (x.types T) ⟨p, false, false, none⟩).refused = true ∨ x.impotent = true
  · -- the call returns in its first turn, and has not been forced
    have hforcing : x.forcing = false := by
      rcases hreturn with href | himpotent
      · exact (hrefused.mp href).1
      · simp [Extension.forcing, himpotent]
    have hlack : x.impotent = true ∨ Lacking x (p.seen T) (x.types T) :=
      hreturn.symm.imp_right fun href => (hrefused.mp href).2
    have hfails : x.impotent = true ∨
        (if (checkTypes T x (x.types T) ⟨p, false, false, none⟩).refused then (-1 : Int) else 0) ≠ 0 :=
      hreturn.symm.imp_right fun href => by simp [href]
    have hunseen := ChecksTypes.unseen_iff (T := T) (c := ⟨p, false, false, none⟩) hcheck
    rw [rounds_returns queries _ others hreturn]
    simp only [hfails, hlack, hforcing, forall_const, true_and]
    exact hunseen
  · -- it commits
    obtain ⟨hnot, himpotent⟩ := not_or.mp hreturn
    have himpotent : x.impotent = false := by simpa using himpotent
    have hok : x.forcing = true ∨ ¬ Lacking x (p.seen T) (x.types T) := by
      rw [hrefused] at hnot
      by_cases hforcing : x.forcing = true
      · exact Or.inl hforcing
      · exact Or.inr fun hlack => hnot ⟨by simpa using hforcing, hlack⟩
    obtain ⟨hresult, hlt⟩ := rounds_commits (T := T) (c := ⟨p, false, false, none⟩) queries hnodup
      himpotent others (fun _ _ => rfl) rfl hok (fun hf => by cases hf)
    rw [hresult]
    simp only [himpotent, Bool.false_eq_true, false_or]
    refine forall_congr' fun hlack => iff_of_false ?_ ?_
    · intro ⟨_, hstore⟩
      rw [hstore] at hlt
      exact absurd hlt (lt_irrefl _)
    · intro ⟨hforcing, _⟩
      rw [hok.resolve_right (not_not.mpr hlack)] at hforcing
      cases hforcing

/-- A call that fails or is impotent leaves no trace exactly under this condition. -/
theorem extendSlice_atomic_iff (T : Tables) (x : Extension) (queries : Queries)
    (others : List OtherChange) (p : Process) :
    Atomic T x p (extendSlice T x queries others p) ↔ LeavesNoTrace T x queries p := by
  by_cases h : x.newExpire ≤ x.sliceExpires
  · exact atomic_shorter_iff queries others p h
  · exact atomic_longer_iff queries others p h

/-- One node in a slice. -/
def oneSlice : Tables where
  groups :=
    [{ type := "pc3000", count := 1, expt := some ("alpha", "exp"), end' := none, autoswap := true,
       nextReserve := none }]
  grouped := by decide
  slices := [⟨("alpha", "exp"), false⟩]

/-- The slice expires at 10. -/
def untilTen : Process :=
  ⟨{ expires := fun _ => 10, futureReservations := [], version := 0 }, fun _ => none⟩

/-- Could it expire at 20? -/
def askForTwenty : Extension := ⟨("alpha", "exp"), 10, 20, true, false⟩

/-- After the question has been asked, the slice is seen to expire at 20. -/
theorem askForTwenty_seen : (untilTen.seen oneSlice "pc3000").map Reservation.end' = [some 10] ∧
    ((extendSlice oneSlice askForTwenty .succeed [] untilTen).process.seen oneSlice "pc3000").map
      Reservation.end' = [some 20] ∧
    ¬ Atomic oneSlice askForTwenty untilTen (extendSlice oneSlice askForTwenty .succeed [] untilTen) := by
  have hbefore : (untilTen.seen oneSlice "pc3000").map Reservation.end' = [some 10] := by decide
  have hafter : ((extendSlice oneSlice askForTwenty .succeed [] untilTen).process.seen oneSlice
      "pc3000").map Reservation.end' = [some 20] := by decide +kernel
  refine ⟨hbefore, hafter, fun hatomic => ?_⟩
  have hsame := (hatomic (Or.inl rfl)).1 "pc3000"
  rw [hsame, hbefore] at hafter
  exact absurd hafter (by decide)

end Emulab.Db
