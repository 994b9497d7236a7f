import Emulab.Lib.Machine
import Emulab.Lib.Tenure

/-! # Reservations of VLAN tags

  A lan reserves tags in a global table before its vlan is put on the switches, and
  the history of the tags is kept in another one. Many processes work on the tables:
  a reservation is made under a lock, but a release is two statements, and so is
  recording a vlan in the table of what is on the switches.
-/

namespace Emulab.Db

open Tenures List Option

/-! ## Section 1: The tables -/

/-- A lan, as far as the tables have it. -/
structure LanInfo where
  lanid : Nat
  vname : String
  pid : String
  eid : String
  exptidx : Nat
deriving DecidableEq, Repr

/-- A row of `reserved_vlantags`. -/
structure ReservedVlanTag where
  lan : LanInfo
  tag : Nat
  reserve_time : Nat
deriving DecidableEq, Repr

/-- A row of `vlans`. -/
structure VlanRow where
  id : Nat
  tag : Nat
deriving DecidableEq, Repr

/-- A row of `vlantag_history`. -/
structure VlanTagHistory where
  lanid : Nat
  tag : Nat
  lanname : String
  exptidx : Nat
  allocated : Nat
  released : Option Nat
deriving DecidableEq, Repr

structure VlanTables where
  reserved_vlantags : List ReservedVlanTag
  vlans : List VlanRow
  vlantag_history : List VlanTagHistory
deriving DecidableEq, Repr

/-- Reserve a tag for a lan, or only check that it is free. -/
def ReserveVlanTag (db : VlanTables) (now : Nat) (lan : LanInfo) (tag : Nat) (checkonly force : Bool) :
    VlanTables × Option Nat :=
  let inuse := (db, none)
  let reserved := ({ db with
    reserved_vlantags := db.reserved_vlantags ++ [⟨lan, tag, now⟩]
    vlantag_history := db.vlantag_history ++ [⟨lan.lanid, tag, lan.vname, lan.exptidx, now, none⟩] }, some tag)
  if db.reserved_vlantags.any fun r => r.tag = tag then inuse
  else if !force then
    -- the vlans table has what is on the switches
    if db.vlans.any fun v => v.tag = tag then inuse
    else if checkonly then (db, some tag)
    else reserved
  else reserved

/-- The rows of a lan, or those of one of its tags. -/
def clause (lanid : Nat) (tag : Option Nat) (t l : Nat) : Bool := l = lanid && (tag = none || tag = some t)

/-- The first statement of `ClearReservedVlanTag`. -/
def updateHistory (db : VlanTables) (now lanid : Nat) (tag : Option Nat) : VlanTables :=
  { db with vlantag_history := db.vlantag_history.map fun h =>
      if clause lanid tag h.tag h.lanid then { h with released := some now } else h }

/-- The second statement of `ClearReservedVlanTag`. -/
def deleteReserved (db : VlanTables) (lanid : Nat) (tag : Option Nat) : VlanTables :=
  { db with reserved_vlantags := db.reserved_vlantags.filter fun r => !clause lanid tag r.tag r.lan.lanid }

/-- The tags that `GetReservedVlanTag` may return: that of any row of the lan. -/
def GetReservedVlanTag (db : VlanTables) (lanid tag : Nat) : Bool :=
  db.reserved_vlantags.any fun r => r.lan.lanid = lanid ∧ r.tag = tag

/-- `RecordVlanInsertion` with the tag that it has read. -/
def replaceVlan (db : VlanTables) (lanid tag : Nat) : VlanTables :=
  { db with vlans := db.vlans.filter (fun v => v.id ≠ lanid) ++ [⟨lanid, tag⟩] }

def RecordVLanDeletion (db : VlanTables) (id : Nat) : VlanTables :=
  { db with vlans := db.vlans.filter fun v => v.id ≠ id }

/-! ## Section 2: Processes -/

/-- What a call of `ReserveVlanTag` did. -/
structure ReserveCall where
  checkonly : Bool
  force : Bool
  changed : Bool
  /-- It put the tag into the table of reservations. -/
  taken : Bool
  /-- The tag was recorded for some vlan. -/
  recorded : Bool
deriving DecidableEq, Repr

/-- The tables, and what the processes are about to do to them. -/
structure VlanWorld where
  db : VlanTables
  now : Nat
  /-- The releases that have made their first statement. -/
  clearing : List (Nat × Option Nat)
  /-- The vlans that are to be recorded, with the tags that were read for them. -/
  recording : List (Nat × Nat)
  /-- Who has held which tag: what the history is to say. -/
  tenures : List (Tenure Nat Nat)
  calls : List ReserveCall
deriving DecidableEq

def VlanWorld.start : VlanWorld := ⟨⟨[], [], []⟩, 0, [], [], [], []⟩

/-- A statement of a process, or some seconds that pass. -/
inductive VlanEvent
  | tick (seconds : Nat)
  | reserve (lan : LanInfo) (tag : Nat) (checkonly force : Bool)
  | update (lanid : Nat) (tag : Option Nat)
  | delete (lanid : Nat) (tag : Option Nat)
  | read (lanid tag : Nat)
  | replace (lanid tag : Nat)
  | unrecord (id : Nat)
deriving DecidableEq

/-- A tenure begins when the tag is put into the table of reservations, and it ends with
    the first release of the lan, or of the tag. -/
def vlanStep (w : VlanWorld) : VlanEvent → Option VlanWorld
  | .tick seconds => some { w with now := w.now + seconds }
  | .reserve lan tag checkonly force =>
    let db := (ReserveVlanTag w.db w.now lan tag checkonly force).1
    let taken : Bool := db.reserved_vlantags ≠ w.db.reserved_vlantags
    some { w with
      db := db
      tenures := if taken then acquire tag lan.lanid w.now w.tenures else w.tenures
      calls := w.calls ++ [⟨checkonly, force, db ≠ w.db, taken, w.db.vlans.any fun v => v.tag = tag⟩] }
  | .update lanid tag => some { w with
      db := updateHistory w.db w.now lanid tag
      clearing := (lanid, tag) :: w.clearing
      tenures := release (clause lanid tag) w.now w.tenures }
  | .delete lanid tag =>
    if (lanid, tag) ∈ w.clearing then
      some { w with db := deleteReserved w.db lanid tag, clearing := w.clearing.erase (lanid, tag) }
    else none
  | .read lanid tag =>
    if GetReservedVlanTag w.db lanid tag then some { w with recording := (lanid, tag) :: w.recording } else none
  | .replace lanid tag =>
    if (lanid, tag) ∈ w.recording then
      some { w with db := replaceVlan w.db lanid tag, recording := w.recording.erase (lanid, tag) }
    else none
  | .unrecord id => some { w with db := RecordVLanDeletion w.db id }

/-- The tenure that a row of the history is about. -/
def VlanTagHistory.tenure (h : VlanTagHistory) : Tenure Nat Nat := ⟨h.tag, h.lanid, h.allocated, h.released⟩

/-- The tags are reserved once each, checks change nothing, and the history has who has
    held them, and when. -/
structure VlanWorld.Kept (w : VlanWorld) : Prop where
  unique : w.db.reserved_vlantags.Pairwise fun r r' => r.tag ≠ r'.tag
  /-- An unforced call has not reserved a tag of a vlan. -/
  unforced : ∀ c ∈ w.calls, c.force = false → c.recorded = true → c.taken = false
  checked : ∀ c ∈ w.calls, c.checkonly = true → c.changed = false
  rows : w.db.vlantag_history.map VlanTagHistory.tenure = w.tenures
  /-- The tenures of one tag follow one another. -/
  ledger : Ledger w.now w.tenures
  /-- A tag is reserved while its tenure lasts. -/
  held : ∀ t ∈ w.tenures, t.till = none → ∃ r ∈ w.db.reserved_vlantags, r.tag = t.resource ∧ r.lan.lanid = t.holder
  /-- The tenure of a reserved tag lasts, unless it is being released. -/
  lasting : ∀ r ∈ w.db.reserved_vlantags,
    (∃ t ∈ w.tenures, t.till = none ∧ t.resource = r.tag ∧ t.holder = r.lan.lanid) ∨
      ∃ c ∈ w.clearing, clause c.1 c.2 r.tag r.lan.lanid = true

/-- The condition on the events: no call is both a check and forced, unless the tag is
    reserved; a release finds no row of the history that was released before; and between
    its two statements no tag of it is reserved. -/
def VlanOk (w : VlanWorld) : VlanEvent → Prop
  | .reserve _ tag checkonly force =>
    checkonly = true → force = true → ∃ r ∈ w.db.reserved_vlantags, r.tag = tag
  | .update lanid tag => ∀ h ∈ w.db.vlantag_history, clause lanid tag h.tag h.lanid = true →
      h.released = none ∨ h.released = some w.now
  | .delete lanid tag => (lanid, tag) ∈ w.clearing → ∀ r ∈ w.db.reserved_vlantags,
      clause lanid tag r.tag r.lan.lanid = true → ∀ h ∈ w.db.vlantag_history,
        h.tag = r.tag → h.lanid = r.lan.lanid → h.released ≠ none
  | _ => True

/-! ## Section 3: One statement -/

theorem ReserveVlanTag_cases (db : VlanTables) (now : Nat) (lan : LanInfo) (tag : Nat) (checkonly force : Bool) :
    (ReserveVlanTag db now lan tag checkonly force).1 = db ∨
    ((∀ r ∈ db.reserved_vlantags, r.tag ≠ tag) ∧
      (force = false → (∀ v ∈ db.vlans, v.tag ≠ tag) ∧ checkonly = false) ∧
      (ReserveVlanTag db now lan tag checkonly force).1 = { db with
        reserved_vlantags := db.reserved_vlantags ++ [⟨lan, tag, now⟩]
        vlantag_history := db.vlantag_history ++ [⟨lan.lanid, tag, lan.vname, lan.exptidx, now, none⟩] }) := by
  unfold ReserveVlanTag
  dsimp only
  split
  · exact Or.inl rfl
  rename_i hfree
  rw [List.any_eq_true] at hfree
  have hfree : ∀ r ∈ db.reserved_vlantags, r.tag ≠ tag := fun r hr htag => hfree ⟨r, hr, decide_eq_true htag⟩
  split
  · split
    · exact Or.inl rfl
    rename_i hvlans
    rw [List.any_eq_true] at hvlans
    split
    · exact Or.inl rfl
    · rename_i hcheck
      exact Or.inr ⟨hfree, fun _ => ⟨fun v hv htag => hvlans ⟨v, hv, decide_eq_true htag⟩,
        by simpa using hcheck⟩, rfl⟩
  · rename_i hforce
    exact Or.inr ⟨hfree, fun h => absurd h (by simpa using hforce), rfl⟩

/-- A call that does not find the tag reserved changes nothing only if it is an unforced
    check, or finds it recorded. -/
theorem ReserveVlanTag_changes {db : VlanTables} {tag : Nat} (hfree : ∀ r ∈ db.reserved_vlantags, r.tag ≠ tag)
    (now : Nat) (lan : LanInfo) (checkonly : Bool) : (ReserveVlanTag db now lan tag checkonly true).1 ≠ db := by
  unfold ReserveVlanTag
  dsimp only
  rw [if_neg (by simpa using hfree), if_neg (by decide)]
  intro hsame
  have hlen := congrArg (fun db => db.reserved_vlantags.length) hsame
  simp at hlen

theorem tenure_updateHistory {db : VlanTables} {now lanid : Nat} {tag : Option Nat} :
    (updateHistory db now lanid tag).vlantag_history.map VlanTagHistory.tenure =
        release (clause lanid tag) now (db.vlantag_history.map VlanTagHistory.tenure) ↔
      ∀ h ∈ db.vlantag_history, clause lanid tag h.tag h.lanid = true →
        h.released = none ∨ h.released = some now := by
  unfold updateHistory release
  rw [List.map_map, List.map_map, map_inj_left]
  refine forall₂_congr fun h _ => ?_
  rw [Function.comp_apply, Function.comp_apply]
  by_cases hc : clause lanid tag h.tag h.lanid = true
  · rw [if_pos hc]
    unfold Tenure.close VlanTagHistory.tenure
    dsimp only
    cases hreleased : h.released with
    | none => simp [hc]
    | some e =>
      rw [if_neg (by simp)]
      simp [hc, eq_comm]
  · rw [if_neg hc]
    unfold Tenure.close VlanTagHistory.tenure
    dsimp only
    rw [if_neg fun h => hc h.2]
    simp [hc]

variable {w : VlanWorld}

/-- The tag that is free is acquired. -/
theorem VlanWorld.Kept.reserve (hw : w.Kept) {tag : Nat}
    (hfree : ∀ r ∈ w.db.reserved_vlantags, r.tag ≠ tag) (lan : LanInfo) {c : ReserveCall}
    (hunforced : c.force = false → c.recorded = true → c.taken = false)
    (hchecked : c.checkonly = true → c.changed = false) :
    VlanWorld.Kept { w with
      db := { w.db with
        reserved_vlantags := w.db.reserved_vlantags ++ [⟨lan, tag, w.now⟩]
        vlantag_history :=
          w.db.vlantag_history ++ [⟨lan.lanid, tag, lan.vname, lan.exptidx, w.now, none⟩] }
      tenures := acquire tag lan.lanid w.now w.tenures
      calls := w.calls ++ [c] } := by
  have hclosed : ∀ t ∈ w.tenures, t.resource = tag → t.till ≠ none := by
    intro t ht htag hopen
    obtain ⟨r, hr, hrtag, -⟩ := hw.held t ht hopen
    exact hfree r hr (hrtag.trans htag)
  constructor
  · refine pairwise_append.mpr ⟨hw.unique, pairwise_singleton _ _, fun r hr r' hr' => ?_⟩
    rw [mem_singleton.mp hr']
    exact hfree r hr
  · intro c' hc'
    rcases mem_append.mp hc' with hc' | hc'
    · exact hw.unforced c' hc'
    · rw [mem_singleton.mp hc']
      exact hunforced
  · intro c' hc'
    rcases mem_append.mp hc' with hc' | hc'
    · exact hw.checked c' hc'
    · rw [mem_singleton.mp hc']
      exact hchecked
  · show (w.db.vlantag_history ++ [_]).map VlanTagHistory.tenure = acquire tag lan.lanid w.now w.tenures
    rw [map_append, hw.rows]
    rfl
  · exact hw.ledger.acquire hclosed lan.lanid
  · intro t ht hopen
    rcases mem_append.mp ht with ht | ht
    · obtain ⟨r, hr, htag, hlan⟩ := hw.held t ht hopen
      exact ⟨r, mem_append_left _ hr, htag, hlan⟩
    · rw [mem_singleton.mp ht]
      exact ⟨_, mem_append_right _ (mem_singleton_self _), rfl, rfl⟩
  · intro r hr
    rcases mem_append.mp hr with hr | hr
    · rcases hw.lasting r hr with ⟨t, ht, hopen⟩ | hclearing
      · exact Or.inl ⟨t, mem_append_left _ ht, hopen⟩
      · exact Or.inr hclearing
    · rw [mem_singleton.mp hr]
      exact Or.inl ⟨_, mem_append_right _ (mem_singleton_self _), rfl, rfl, rfl⟩

theorem VlanWorld.Kept.open_iff (hw : w.Kept) (tag lanid : Nat) :
    (∃ t ∈ w.tenures, t.till = none ∧ t.resource = tag ∧ t.holder = lanid) ↔
      ∃ h ∈ w.db.vlantag_history, h.released = none ∧ h.tag = tag ∧ h.lanid = lanid := by
  rw [← hw.rows]
  constructor
  · rintro ⟨t, ht, hopen⟩
    obtain ⟨h, hh, rfl⟩ := mem_map.mp ht
    exact ⟨h, hh, hopen⟩
  · rintro ⟨h, hh, hopen⟩
    exact ⟨h.tenure, mem_map_of_mem hh, hopen⟩

theorem VlanWorld.Kept.refused (hw : w.Kept) {c : ReserveCall} (hchanged : c.changed = false)
    (htaken : c.taken = false) : VlanWorld.Kept { w with calls := w.calls ++ [c] } := by
  refine ⟨hw.unique, fun c' hc' => ?_, fun c' hc' => ?_, hw.rows, hw.ledger, hw.held, hw.lasting⟩
  · rcases mem_append.mp hc' with hc' | hc'
    · exact hw.unforced c' hc'
    · rw [mem_singleton.mp hc']
      exact fun _ _ => htaken
  · rcases mem_append.mp hc' with hc' | hc'
    · exact hw.checked c' hc'
    · rw [mem_singleton.mp hc']
      exact fun _ => hchanged

/-- The first statement of a release keeps the world exactly if no row of it was released before. -/
theorem VlanWorld.Kept.update_iff (hw : w.Kept) (lanid : Nat) (tag : Option Nat) : VlanWorld.Kept { w with
      db := updateHistory w.db w.now lanid tag
      clearing := (lanid, tag) :: w.clearing
      tenures := release (clause lanid tag) w.now w.tenures } ↔ VlanOk w (.update lanid tag) := by
  have hrows := @tenure_updateHistory w.db w.now lanid tag
  rw [hw.rows] at hrows
  refine ⟨fun h => hrows.mp h.rows, fun h => ⟨hw.unique, hw.unforced, hw.checked, hrows.mpr h, ?_, ?_, ?_⟩⟩
  · exact hw.ledger.release (clause lanid tag)
  · intro t ht hopen
    obtain ⟨t₀, ht₀, rfl⟩ := mem_map.mp ht
    rw [resource_close, holder_close]
    exact hw.held t₀ ht₀ (till_close_eq_none.mp hopen).1
  · intro r hr
    rcases hw.lasting r hr with ⟨t, ht, hopen, htag, hlan⟩ | ⟨c, hc, hmatch⟩
    · by_cases hmatch : clause lanid tag r.tag r.lan.lanid = true
      · -- it is being released now
        exact Or.inr ⟨(lanid, tag), mem_cons_self, hmatch⟩
      · refine Or.inl ⟨t.close (clause lanid tag) w.now, mem_map_of_mem ht, ?_, ?_, ?_⟩
        · rw [till_close_eq_none, htag, hlan]
          exact ⟨hopen, by simpa using hmatch⟩
        · rwa [resource_close]
        · rwa [holder_close]
    · exact Or.inr ⟨c, mem_cons_of_mem _ hc, hmatch⟩

/-- The second statement of a release keeps the world exactly if the tenures of the rows
    that it deletes have ended. -/
theorem VlanWorld.Kept.delete_iff (hw : w.Kept) {lanid : Nat} {tag : Option Nat}
    (hclearing : (lanid, tag) ∈ w.clearing) :
    VlanWorld.Kept { w with db := deleteReserved w.db lanid tag, clearing := w.clearing.erase (lanid, tag) } ↔
      VlanOk w (.delete lanid tag) := by
  have hleft : ∀ r, r ∈ (deleteReserved w.db lanid tag).reserved_vlantags ↔
      r ∈ w.db.reserved_vlantags ∧ clause lanid tag r.tag r.lan.lanid = false := by
    intro r
    unfold deleteReserved
    rw [mem_filter, Bool.not_eq_true']
  constructor
  · intro h _ r hr hmatch row hrow htag hlan hopen
    -- the tenure would outlast the reservation
    obtain ⟨t, ht, htill, hres, hholder⟩ := (hw.open_iff r.tag r.lan.lanid).mpr ⟨row, hrow, hopen, htag, hlan⟩
    obtain ⟨r', hr', htag', hlan'⟩ := h.held t ht htill
    have hkept := ((hleft r').mp hr').2
    rw [htag', hlan', hres, hholder, hmatch] at hkept
    cases hkept
  · intro h
    refine ⟨hw.unique.filter _, hw.unforced, hw.checked, hw.rows, hw.ledger, ?_, ?_⟩
    · intro t ht hopen
      obtain ⟨r, hr, htag, hlan⟩ := hw.held t ht hopen
      refine ⟨r, (hleft r).mpr ⟨hr, ?_⟩, htag, hlan⟩
      by_contra hmatch
      obtain ⟨row, hrow, hreleased, hrtag, hrlan⟩ :=
        (hw.open_iff r.tag r.lan.lanid).mp ⟨t, ht, hopen, htag.symm, hlan.symm⟩
      exact h hclearing r hr (by simpa using hmatch) row hrow hrtag hrlan hreleased
    · intro r hr
      obtain ⟨hr, hkept⟩ := (hleft r).mp hr
      rcases hw.lasting r hr with hopen | ⟨c, hc, hmatch⟩
      · exact Or.inl hopen
      · refine Or.inr ⟨c, (mem_erase_of_ne ?_).mpr hc, hmatch⟩
        rintro rfl
        rw [hkept] at hmatch
        cases hmatch

theorem VlanWorld.Kept.reserve_iff {w w' : VlanWorld} (hw : w.Kept) {lan : LanInfo} {tag : Nat}
    {checkonly force : Bool} (hstep : vlanStep w (.reserve lan tag checkonly force) = some w') :
    w'.Kept ↔ VlanOk w (.reserve lan tag checkonly force) := by
  rw [← some.inj hstep]
  rcases ReserveVlanTag_cases w.db w.now lan tag checkonly force with hsame | ⟨hfree, hunforced, htaken⟩
  · rw [hsame, decide_eq_false (not_not_intro rfl), decide_eq_false (not_not_intro rfl), if_neg Bool.false_ne_true]
    refine iff_of_true (hw.refused rfl rfl) fun _ hforce => ?_
    by_contra hnone
    have hfree : ∀ r ∈ w.db.reserved_vlantags, r.tag ≠ tag := fun r hr htag => hnone ⟨r, hr, htag⟩
    exact ReserveVlanTag_changes hfree w.now lan checkonly (hforce ▸ hsame)
  · have hrows : w.db.reserved_vlantags ++ [⟨lan, tag, w.now⟩] ≠ w.db.reserved_vlantags := by
      intro hsame
      have hlen := congrArg List.length hsame
      simp at hlen
    have hdb : { w.db with
        reserved_vlantags := w.db.reserved_vlantags ++ [⟨lan, tag, w.now⟩]
        vlantag_history := w.db.vlantag_history ++
          [⟨lan.lanid, tag, lan.vname, lan.exptidx, w.now, none⟩] } ≠ w.db :=
      fun hsame => hrows (congrArg VlanTables.reserved_vlantags hsame)
    rw [htaken, decide_eq_true hrows, decide_eq_true hdb, if_pos rfl]
    constructor
    · intro h hcheck
      have hnew := h.checked _ (mem_append_right _ (mem_singleton_self _)) hcheck
      cases hnew
    · intro hok
      refine hw.reserve hfree lan (fun hforce hrecorded => ?_) fun hcheck => ?_
      · obtain ⟨v, hv, htag⟩ := List.any_eq_true.mp hrecorded
        exact absurd (of_decide_eq_true htag) ((hunforced hforce).1 v hv)
      · cases force with
        | true =>
          obtain ⟨r, hr, htag⟩ := hok hcheck rfl
          exact absurd htag (hfree r hr)
        | false =>
          have hnocheck := (hunforced rfl).2
          rw [show checkonly = true from hcheck] at hnocheck
          cases hnocheck

/-- Each event keeps the world exactly if it meets the condition. -/
theorem VlanWorld.Kept.step_iff {w w' : VlanWorld} {e : VlanEvent} (hw : w.Kept) (hstep : vlanStep w e = some w') :
    w'.Kept ↔ VlanOk w e := by
  cases e with
  | tick seconds =>
    rw [← some.inj hstep]
    exact iff_of_true ⟨hw.unique, hw.unforced, hw.checked, hw.rows,
      hw.ledger.mono (Nat.le_add_right _ _), hw.held, hw.lasting⟩ trivial
  | reserve lan tag checkonly force => exact hw.reserve_iff hstep
  | update lanid tag =>
    rw [← some.inj hstep]
    exact hw.update_iff lanid tag
  | delete lanid tag =>
    have hstep : (if (lanid, tag) ∈ w.clearing then _ else none) = some w' := hstep
    split at hstep
    · rename_i hclearing
      rw [← some.inj hstep]
      exact hw.delete_iff hclearing
    · cases hstep
  | read lanid tag =>
    have hstep : (if GetReservedVlanTag w.db lanid tag then _ else none) = some w' := hstep
    split at hstep
    · rw [← some.inj hstep]
      exact iff_of_true ⟨hw.unique, hw.unforced, hw.checked, hw.rows, hw.ledger, hw.held, hw.lasting⟩ trivial
    · cases hstep
  | replace lanid tag =>
    have hstep : (if (lanid, tag) ∈ w.recording then _ else none) = some w' := hstep
    split at hstep
    · rw [← some.inj hstep]
      exact iff_of_true ⟨hw.unique, hw.unforced, hw.checked, hw.rows, hw.ledger, hw.held, hw.lasting⟩ trivial
    · cases hstep
  | unrecord id =>
    rw [← some.inj hstep]
    exact iff_of_true ⟨hw.unique, hw.unforced, hw.checked, hw.rows, hw.ledger, hw.held, hw.lasting⟩ trivial

theorem start_kept : VlanWorld.start.Kept := by
  constructor
  · exact List.Pairwise.nil
  · exact fun _ hc => absurd hc not_mem_nil
  · exact fun _ hc => absurd hc not_mem_nil
  · rfl
  · exact Ledger.nil 0
  · exact fun _ ht => absurd ht not_mem_nil
  · exact fun _ hr => absurd hr not_mem_nil

/-- An event that is not possible meets the condition. -/
theorem vlanOk_of_none {e : VlanEvent} (h : vlanStep w e = none) : VlanOk w e := by
  cases e with
  | tick | reserve | update | unrecord => cases h
  | read | replace => trivial
  | delete lanid tag =>
    intro hclearing
    have h : (if (lanid, tag) ∈ w.clearing then _ else none) = none := h
    rw [if_pos hclearing] at h
    cases h

/-! ## Section 4: Every interleaving -/

/-- One row at most of a tag is open, and the times of its rows do not overlap. -/
def VlanTables.Orderly (db : VlanTables) : Prop :=
  (∀ tag, (db.vlantag_history.filter fun h => h.tag = tag ∧ h.released = none).length ≤ 1) ∧
    db.vlantag_history.Pairwise fun h h' => h.tag = h'.tag → ∀ x, ¬(h.tenure.Has x ∧ h'.tenure.Has x)

theorem VlanWorld.Kept.orderly (hw : w.Kept) : w.db.Orderly := by
  have hledger := hw.ledger
  rw [← hw.rows] at hledger
  constructor
  · intro tag
    have hone := hledger.one_open tag
    rw [List.filter_map, length_map] at hone
    exact hone
  · exact pairwise_map.mp hledger.disjoint

/-- The tags and their history are as they should be in all states of a run exactly if all
    of its events meet the condition. -/
theorem vlantag_history_iff (events : List VlanEvent) :
    (∀ pre w, pre <+: events → Machine.run vlanStep VlanWorld.start pre = some w → w.Kept ∧ w.db.Orderly) ↔
      Machine.Meets vlanStep VlanOk VlanWorld.start events := by
  rw [← Machine.prefix_iff_meets (fun _ => True) VlanWorld.Kept (fun _ _ _ _ _ => trivial)
    (fun _ _ _ _ hw hstep => hw.step_iff hstep) (fun _ _ _ h => vlanOk_of_none h) trivial start_kept
    events]
  constructor
  · exact fun h pre w hpre hrun => (h pre w hpre hrun).1
  · exact fun h pre w hpre hrun => ⟨h pre w hpre hrun, (h pre w hpre hrun).orderly⟩

instance (w : VlanWorld) : (e : VlanEvent) → Decidable (VlanOk w e)
  | .reserve _ _ _ _ => inferInstanceAs (Decidable (_ → _ → ∃ r ∈ w.db.reserved_vlantags, _))
  | .update _ _ => inferInstanceAs (Decidable (∀ h ∈ w.db.vlantag_history, _ → _ ∨ _))
  | .delete _ _ => inferInstanceAs (Decidable (_ → ∀ r ∈ w.db.reserved_vlantags, _ → ∀ h ∈ w.db.vlantag_history, _))
  | .tick _ | .read _ _ | .replace _ _ | .unrecord _ => isTrue trivial

def firstLan : LanInfo := ⟨1, "lan0", "testbed", "one", 10⟩

/-- A lan that reserves again after a release changes the row of the released tag with the next release; a
    check that is forced reserves; and what is reserved between the two statements of a release is lost. -/
theorem vlantag_history_lost :
    (¬ ∀ (events : List VlanEvent) (w : VlanWorld), Machine.run vlanStep VlanWorld.start events = some w →
      w.db.vlantag_history.map VlanTagHistory.tenure = w.tenures) ∧
    (¬ ∀ (events : List VlanEvent) (w : VlanWorld), Machine.run vlanStep VlanWorld.start events = some w →
      ∀ c ∈ w.calls, c.checkonly = true → c.changed = false) ∧
    ¬ ∀ (events : List VlanEvent) (w : VlanWorld), Machine.run vlanStep VlanWorld.start events = some w →
      ∀ t ∈ w.tenures, t.till = none → ∃ r ∈ w.db.reserved_vlantags, r.tag = t.resource := by
  refine ⟨fun h => ?_, fun h => ?_, fun h => ?_⟩
  · have hrun : (Machine.run vlanStep VlanWorld.start [.reserve firstLan 100 false false, .tick 5, .update 1 none,
        .delete 1 none, .tick 5, .reserve firstLan 200 false false, .tick 5, .update 1 none]).map
          (fun w => decide (w.db.vlantag_history.map VlanTagHistory.tenure = w.tenures)) = some false := by
      decide +kernel
    obtain ⟨w, hw, hne⟩ := map_eq_some_iff.mp hrun
    exact of_decide_eq_false hne (h _ w hw)
  · have hrun : (Machine.run vlanStep VlanWorld.start [.reserve firstLan 100 true true]).map
        (fun w => decide (∀ c ∈ w.calls, c.checkonly = true → c.changed = false)) = some false := by
      decide +kernel
    obtain ⟨w, hw, hne⟩ := map_eq_some_iff.mp hrun
    exact of_decide_eq_false hne (h _ w hw)
  · have hrun : (Machine.run vlanStep VlanWorld.start [.reserve firstLan 100 false false, .update 1 none,
        .reserve firstLan 200 false false, .delete 1 none]).map (fun w => decide
          (∀ t ∈ w.tenures, t.till = none → ∃ r ∈ w.db.reserved_vlantags, r.tag = t.resource)) = some false := by
      decide +kernel
    obtain ⟨w, hw, hne⟩ := map_eq_some_iff.mp hrun
    exact of_decide_eq_false hne (h _ w hw)

end Emulab.Db
