import Mathlib.Tactic

/-! # The permissions of leases

  Who may use a lease is found out in two ways. `AccessCheck` decides it for
  one lease, and `AllowedLeases` selects from the tables all leases that a user
  has access to.
-/

namespace Emulab.Db

/-! ## Section 1: Users, groups and leases -/

def PROJMEMBERTRUST_NONE : Nat := 0
def PROJMEMBERTRUST_USER : Nat := 1
def PROJMEMBERTRUST_LOCALROOT : Nat := 2
def PROJMEMBERTRUST_GROUPROOT : Nat := 3
def PROJMEMBERTRUST_PROJROOT : Nat := 4

def LEASE_ACCESS_READINFO : Nat := 1
def LEASE_ACCESS_READ : Nat := 2
def LEASE_ACCESS_MODIFY : Nat := 3
def LEASE_ACCESS_DESTROY : Nat := 4
def LEASE_ACCESS_MIN : Nat := LEASE_ACCESS_READINFO
def LEASE_ACCESS_MAX : Nat := LEASE_ACCESS_DESTROY

def GLOBAL_PERM_ANON_RO_IDX : Nat := 1
def GLOBAL_PERM_USER_RO_IDX : Nat := 2

inductive TrustString where
  | none | user | local_root | group_root | project_root
deriving DecidableEq, Repr

def TBTrustConvert : TrustString → Nat
  | .none => PROJMEMBERTRUST_NONE
  | .user => PROJMEMBERTRUST_USER
  | .local_root => PROJMEMBERTRUST_LOCALROOT
  | .group_root => PROJMEMBERTRUST_GROUPROOT
  | .project_root => PROJMEMBERTRUST_PROJROOT

def TBMinTrust (trust_value minimum : Nat) : Bool := minimum ≤ trust_value

structure User where
  uid_idx : Nat
  uid : String
  active : Bool
  nonlocal_id : Option String
deriving DecidableEq, Repr

def User.IsLocal (u : User) : Bool := u.nonlocal_id.isNone

structure Group where
  gid_idx : Nat
  pid_idx : Nat
  pid : String
  gid : String
deriving DecidableEq, Repr

def Group.IsProjectGroup (g : Group) : Bool := g.pid_idx = g.gid_idx

/-- A row of `group_membership`. -/
structure MemberShip where
  uid_idx : Nat
  gid_idx : Nat
  trust : TrustString
deriving DecidableEq, Repr

inductive LeaseType where
  | stdataset | ltdataset | unknown
deriving DecidableEq, Repr

def validLeaseType (type : LeaseType) : Bool := type ∈ [LeaseType.stdataset, .ltdataset]

/-- A row of `project_leases`. -/
structure Lease where
  lease_idx : Nat
  owner_uid : String
  pid : String
  gid : String
  type : LeaseType
deriving DecidableEq, Repr

inductive PermissionType where
  | user | group | global
deriving DecidableEq, Repr

/-- A row of `lease_permissions`. -/
structure LeasePermission where
  lease_idx : Nat
  permission_type : PermissionType
  permission_idx : Nat
  allow_modify : Bool
deriving DecidableEq, Repr

structure LeaseTables where
  users : List User
  groups : List Group
  group_membership : List MemberShip
  project_leases : List Lease
  lease_permissions : List LeasePermission
  lease_key : (project_leases.map (·.lease_idx)).Nodup

namespace LeaseTables

variable (D : LeaseTables)

/-- `User->Lookup` -/
def lookupUser (uid_idx : Nat) : Option User := D.users.find? fun u => u.uid_idx = uid_idx

/-- `Group->Lookup` with one argument. -/
def lookupGroup (gid_idx : Nat) : Option Group := D.groups.find? fun g => g.gid_idx = gid_idx

/-- `Group->Lookup` with two arguments. -/
def lookupByPidGid (pid gid : String) : Option Group :=
  D.groups.find? fun g => g.pid = pid ∧ g.gid = gid

/-- `$group->Trust($user)` -/
def Trust (g : Group) (u : User) : Nat :=
  if u.active then
    match D.group_membership.find? fun m => m.uid_idx = u.uid_idx ∧ m.gid_idx = g.gid_idx with
    | some membership => TBTrustConvert membership.trust
    | none => PROJMEMBERTRUST_NONE
  else
    PROJMEMBERTRUST_NONE

/-- The groups of a user, or `none` if one of them could not be loaded. -/
def GroupMembershipList (u : User) : Option (List Group) :=
  (D.group_membership.filter fun m => m.uid_idx = u.uid_idx ∧ m.trust ≠ .none).mapM fun m =>
    D.lookupGroup m.gid_idx

/-! ## Section 2: The list of leases -/

/-- The projects that a user of some groups has `group_root` or above in. -/
def adminPids (u : User) (ugroups : List Group) : List String :=
  (ugroups.filter fun g => g.IsProjectGroup ∧ TBMinTrust (D.Trust g u) PROJMEMBERTRUST_GROUPROOT).map (·.pid)

/-- The entries of `lease_permissions` that pertain to a user. -/
def userWclause (u : User) (ugroups : List Group) (e : LeasePermission) : Bool :=
  if u.IsLocal then
    e.permission_type = .global ∨
    (e.permission_type = .user ∧ e.permission_idx = u.uid_idx) ∨
    (e.permission_type = .group ∧ e.permission_idx ∈ ugroups.map (·.gid_idx))
  else
    e.permission_type = .global ∧ e.permission_idx = GLOBAL_PERM_ANON_RO_IDX

/-- The entries that pertain to a group. -/
def groupWclause (g : Group) (e : LeasePermission) : Bool :=
  e.permission_type = .global ∨ (e.permission_type = .group ∧ e.permission_idx = g.gid_idx)

/-- The leases that a local user owns, or that are in projects he has root in, with the right to
    modify them. -/
def ownLeases (u : User) (ugroups : List Group) (lease_idx : Nat) : Option Bool :=
  if u.IsLocal ∧ ∃ l ∈ D.project_leases, l.lease_idx = lease_idx ∧
      (l.owner_uid = u.uid ∨ l.pid ∈ D.adminPids u ugroups) then
    some true
  else
    none

/-- Enter a permission in `%lease_indexes`. -/
def addPermission (lease_indexes : Nat → Option Bool) (e : LeasePermission) : Nat → Option Bool :=
  Function.update lease_indexes e.lease_idx (some (e.allow_modify || (lease_indexes e.lease_idx).getD false))

/-- The rows of the query on `lease_permissions`. The clause for a type names a table `pl` that the
    query does not select from, so that the query fails. -/
def permissionRows (wclause : LeasePermission → Bool) (type : Option LeaseType) : List LeasePermission :=
  match type with
  | none => D.lease_permissions.filter wclause
  | some _ => []

/-- The leases that a permission was found for, with `allow_modify`. -/
def fetchLeases (lease_indexes : Nat → Option Bool) : List (Lease × Bool) :=
  D.project_leases.filterMap fun l => (lease_indexes l.lease_idx).map fun modify => (l, modify)

inductive Principal where
  | user (u : User)
  | group (g : Group)

def AllowedLeases (principal : Principal) (type : Option LeaseType) : Option (List (Lease × Bool)) := do
  let (lease_indexes, wclause) ←
    (match principal with
    | .user u => do
      let ugroups ← D.GroupMembershipList u
      if ugroups = [] then none else some (D.ownLeases u ugroups, userWclause u ugroups)
    | .group g => some (fun _ => none, groupWclause g))
  if ∃ t ∈ type, ¬validLeaseType t then
    none
  else
    some (D.fetchLeases ((D.permissionRows wclause type).foldl addPermission lease_indexes))

/-! ## Section 3: The check of one lease -/

/-- The access that an entry gives, or `none` where the entry is passed over. -/
def entryAccess (u : User) (e : LeasePermission) : Option Nat :=
  let this_access (modify : Bool) := if modify then LEASE_ACCESS_MODIFY else LEASE_ACCESS_READ
  match e.permission_type with
  | .global =>
    -- read-only, whatever the entry says
    if e.permission_idx = GLOBAL_PERM_ANON_RO_IDX then some (this_access false)
    else if e.permission_idx = GLOBAL_PERM_USER_RO_IDX then
      if u.IsLocal then some (this_access false) else none
    else none
  | .group =>
    match D.lookupGroup e.permission_idx with
    | some dbgroup =>
      if TBMinTrust (D.Trust dbgroup u) PROJMEMBERTRUST_LOCALROOT then some (this_access e.allow_modify)
      else none
    | none => none
  | .user =>
    match D.lookupUser e.permission_idx with
    | some dbusr => if dbusr.uid_idx = u.uid_idx then some (this_access e.allow_modify) else none
    | none => none

def takeGreater (u : User) (user_access : Nat) (e : LeasePermission) : Nat :=
  match D.entryAccess u e with
  | some this_access => if this_access > user_access then this_access else user_access
  | none => user_access

def leaseGroup (l : Lease) : Option Group :=
  D.lookupByPidGid l.pid (if l.gid = "" then l.pid else l.gid)

def entriesOf (l : Lease) : List LeasePermission :=
  D.lease_permissions.filter fun e => e.lease_idx = l.lease_idx

/-- Check the permissions of a lease for a user. `privileged` says that he is an admin, or that the
    process runs as root. `none` is the call of a method of a group that does not exist. -/
def AccessCheck (privileged : Bool) (l : Lease) (u : User) (access_type : Nat) : Option Bool :=
  if access_type < LEASE_ACCESS_MIN ∨ access_type > LEASE_ACCESS_MAX then some false
  else if privileged then some true
  else if u.uid = l.owner_uid then some true
  else
    match D.leaseGroup l with
    | none => none
    | some group =>
      let gtrust := D.Trust group u
      if TBMinTrust gtrust PROJMEMBERTRUST_GROUPROOT then some true
      else
        let user_access := if TBMinTrust gtrust PROJMEMBERTRUST_USER then LEASE_ACCESS_READINFO else 0
        some (TBMinTrust ((D.entriesOf l).foldl (D.takeGreater u) user_access) access_type)

/-! ## Section 4: What the list selects, and what the check grants -/

/-- There is a list of leases for the user. -/
def Lists (u : User) (type : Option LeaseType) : Prop :=
  (∃ ugroups, D.GroupMembershipList u = some ugroups ∧ ugroups ≠ []) ∧ ∀ t ∈ type, validLeaseType t = true

/-- A user has `group_root` or above in the project of a lease. -/
def ProjectRoot (u : User) (l : Lease) : Prop :=
  ∃ ugroups, D.GroupMembershipList u = some ugroups ∧ l.pid ∈ D.adminPids u ugroups

/-- A user has `group_root` or above in the group of a lease. -/
def GroupRoot (u : User) (l : Lease) : Prop :=
  ∃ group, D.leaseGroup l = some group ∧ TBMinTrust (D.Trust group u) PROJMEMBERTRUST_GROUPROOT = true

/-- An entry of `lease_permissions` selects a lease for a user. -/
def Selects (u : User) (l : Lease) (P : LeasePermission → Prop) : Prop :=
  ∃ ugroups, D.GroupMembershipList u = some ugroups ∧ ∃ e ∈ D.entriesOf l, userWclause u ugroups e = true ∧ P e

def Grants (u : User) (l : Lease) (access : Nat) : Prop :=
  (∃ group, D.leaseGroup l = some group) ∧
    ∃ e ∈ D.entriesOf l, ∃ this_access, D.entryAccess u e = some this_access ∧ access ≤ this_access

section

variable {D} {u : User} {l : Lease} {type : Option LeaseType}

theorem foldl_addPermission_isSome (rows : List LeasePermission) (h : Nat → Option Bool) (idx : Nat) :
    (rows.foldl addPermission h idx).isSome ↔ (h idx).isSome ∨ ∃ e ∈ rows, e.lease_idx = idx := by
  induction rows generalizing h with
  | nil => simp
  | cons e rows ih =>
    rw [List.foldl_cons, ih]
    unfold addPermission
    by_cases heq : e.lease_idx = idx
    · simp [← heq]
    · rw [Function.update_of_ne (Ne.symm heq)]
      simp [heq]

theorem foldl_addPermission_eq_true (rows : List LeasePermission) (h : Nat → Option Bool) (idx : Nat) :
    rows.foldl addPermission h idx = some true ↔
      h idx = some true ∨ ∃ e ∈ rows, e.lease_idx = idx ∧ e.allow_modify = true := by
  induction rows generalizing h with
  | nil => simp
  | cons e rows ih =>
    rw [List.foldl_cons, ih]
    unfold addPermission
    by_cases heq : e.lease_idx = idx
    · subst heq
      rw [Function.update_self]
      cases h e.lease_idx
      · simp
      · simp [or_comm, or_assoc]
    · rw [Function.update_of_ne (Ne.symm heq)]
      simp [heq]

theorem ownLeases_eq (hlocal : u.IsLocal = true) (hl : l ∈ D.project_leases) (ugroups : List Group) :
    D.ownLeases u ugroups l.lease_idx =
      if l.owner_uid = u.uid ∨ l.pid ∈ D.adminPids u ugroups then some true else none := by
  unfold ownLeases
  congr 1
  rw [eq_iff_iff]
  constructor
  · rintro ⟨-, l', hl', hidx, h⟩
    obtain rfl := List.inj_on_of_nodup_map D.lease_key hl' hl hidx
    exact h
  · intro h
    exact ⟨hlocal, l, hl, rfl, h⟩

theorem allowedLeases_eq (u : User) (type : Option LeaseType) {ls : List (Lease × Bool)} :
    D.AllowedLeases (.user u) type = some ls ↔ (∀ t ∈ type, validLeaseType t = true) ∧
      ∃ ugroups, D.GroupMembershipList u = some ugroups ∧ ugroups ≠ [] ∧
        D.fetchLeases ((D.permissionRows (userWclause u ugroups) type).foldl addPermission
          (D.ownLeases u ugroups)) = ls := by
  unfold AllowedLeases
  cases hgroups : D.GroupMembershipList u with
  | none => simp [hgroups]
  | some ugroups =>
    by_cases hempty : ugroups = []
    · simp [hgroups, hempty]
    · cases type with
      | none => simp [hgroups, hempty]
      | some t => cases hvalid : validLeaseType t <;> simp [hgroups, hempty, hvalid]

theorem mem_fetchLeases (hl : l ∈ D.project_leases) {h : Nat → Option Bool} {modify : Bool} :
    (l, modify) ∈ D.fetchLeases h ↔ h l.lease_idx = some modify := by
  unfold fetchLeases
  rw [List.mem_filterMap]
  constructor
  · rintro ⟨l', -, heq⟩
    rw [Option.map_eq_some_iff] at heq
    obtain ⟨m, hm, hpair⟩ := heq
    simp only [Prod.mk.injEq] at hpair
    rw [← hpair.1, hm, hpair.2]
  · intro heq
    exact ⟨l, hl, by rw [heq]; rfl⟩

variable {ugroups : List Group}

theorem exists_permissionRows (hgroups : D.GroupMembershipList u = some ugroups) (P : LeasePermission → Prop) :
    (∃ e ∈ D.permissionRows (userWclause u ugroups) type, e.lease_idx = l.lease_idx ∧ P e) ↔
      type = none ∧ D.Selects u l P := by
  cases type with
  | some t => simp [permissionRows]
  | none =>
    unfold permissionRows Selects entriesOf
    simp only [List.mem_filter, decide_eq_true_eq, hgroups, Option.some.injEq, true_and, exists_eq_left']
    constructor
    · rintro ⟨e, ⟨he, hclause⟩, hidx, hP⟩
      exact ⟨e, ⟨he, hidx⟩, hclause, hP⟩
    · rintro ⟨e, ⟨he, hidx⟩, hclause, hP⟩
      exact ⟨e, ⟨he, hclause⟩, hidx, hP⟩

theorem projectRoot_iff (hgroups : D.GroupMembershipList u = some ugroups) :
    D.ProjectRoot u l ↔ l.pid ∈ D.adminPids u ugroups := by
  unfold ProjectRoot
  simp [hgroups]

theorem exists_allowedLeases_iff {P : List (Lease × Bool) → Prop} {Q : Prop}
    (hkey : ∀ ugroups, D.GroupMembershipList u = some ugroups →
      (P (D.fetchLeases ((D.permissionRows (userWclause u ugroups) type).foldl
        addPermission (D.ownLeases u ugroups))) ↔ Q)) :
    (∃ ls, D.AllowedLeases (.user u) type = some ls ∧ P ls) ↔ D.Lists u type ∧ Q := by
  constructor
  · rintro ⟨ls, hls, hmem⟩
    obtain ⟨hvalid, ugroups, hgroups, hne, rfl⟩ := (allowedLeases_eq u type).mp hls
    exact ⟨⟨⟨ugroups, hgroups, hne⟩, hvalid⟩, (hkey ugroups hgroups).mp hmem⟩
  · rintro ⟨⟨⟨ugroups, hgroups, hne⟩, hvalid⟩, h⟩
    exact ⟨_, (allowedLeases_eq u type).mpr ⟨hvalid, ugroups, hgroups, hne, rfl⟩, (hkey ugroups hgroups).mpr h⟩

theorem listed_iff (hlocal : u.IsLocal = true) (hl : l ∈ D.project_leases) :
    (∃ ls, D.AllowedLeases (.user u) type = some ls ∧ ∃ modify, (l, modify) ∈ ls) ↔ D.Lists u type ∧
        (l.owner_uid = u.uid ∨ D.ProjectRoot u l ∨ type = none ∧ D.Selects u l fun _ => True) := by
  refine exists_allowedLeases_iff fun ugroups hgroups => ?_
  simp only [mem_fetchLeases hl, ← Option.isSome_iff_exists]
  rw [foldl_addPermission_isSome, ownLeases_eq hlocal hl, projectRoot_iff hgroups, ← exists_permissionRows hgroups]
  simp only [and_true]
  split
  · rename_i h
    simp [← or_assoc, h]
  · rename_i h
    simp [← or_assoc, h]

theorem listed_modify_iff (hlocal : u.IsLocal = true) (hl : l ∈ D.project_leases) :
    (∃ ls, D.AllowedLeases (.user u) type = some ls ∧ (l, true) ∈ ls) ↔
      D.Lists u type ∧ (l.owner_uid = u.uid ∨ D.ProjectRoot u l ∨
        type = none ∧ D.Selects u l fun e => e.allow_modify = true) := by
  refine exists_allowedLeases_iff (P := fun ls => (l, true) ∈ ls) fun ugroups hgroups => ?_
  rw [mem_fetchLeases hl, foldl_addPermission_eq_true, ownLeases_eq hlocal hl,
    projectRoot_iff hgroups, ← exists_permissionRows hgroups]
  split
  · rename_i h
    simp [← or_assoc, h]
  · rename_i h
    simp [← or_assoc, h]

theorem le_foldl_takeGreater {access : Nat} (entries : List LeasePermission) (user_access : Nat) :
    access ≤ entries.foldl (D.takeGreater u) user_access ↔ access ≤ user_access ∨
      ∃ e ∈ entries, ∃ this_access, D.entryAccess u e = some this_access ∧ access ≤ this_access := by
  induction entries generalizing user_access with
  | nil => simp
  | cons e entries ih =>
    rw [List.foldl_cons, ih]
    unfold takeGreater
    cases hentry : D.entryAccess u e with
    | none => simp [hentry]
    | some this_access =>
      have hmax : (if this_access > user_access then this_access else user_access) =
          max user_access this_access := by
        split <;> omega
      simp only [List.mem_cons, exists_eq_or_imp, hentry, Option.some.injEq, exists_eq_left', hmax,
        le_max_iff, or_assoc]

/-- What the check says of reading, modifying and destroying. -/
theorem accessCheck_iff {access_type : Nat} (hmin : LEASE_ACCESS_READINFO < access_type)
    (hmax : access_type ≤ LEASE_ACCESS_MAX) :
    D.AccessCheck false l u access_type = some true ↔
      l.owner_uid = u.uid ∨ D.GroupRoot u l ∨ D.Grants u l access_type := by
  have hrange : ¬(access_type < LEASE_ACCESS_MIN ∨ access_type > LEASE_ACCESS_MAX) := by
    unfold LEASE_ACCESS_MIN
    omega
  unfold AccessCheck
  rw [if_neg hrange, if_neg Bool.false_ne_true]
  by_cases howner : u.uid = l.owner_uid
  · simp [howner]
  rw [if_neg howner]
  have howner' : l.owner_uid ≠ u.uid := Ne.symm howner
  unfold GroupRoot Grants
  cases D.leaseGroup l with
  | none => simp [howner']
  | some group =>
    dsimp only
    by_cases hroot : TBMinTrust (D.Trust group u) PROJMEMBERTRUST_GROUPROOT = true
    · simp [hroot]
    rw [if_neg hroot]
    have hbefore : ¬access_type ≤
        (if TBMinTrust (D.Trust group u) PROJMEMBERTRUST_USER = true then LEASE_ACCESS_READINFO else 0) := by
      split
      · omega
      · omega
    rw [Option.some.injEq]
    unfold TBMinTrust at *
    rw [decide_eq_true_eq, le_foldl_takeGreater]
    simp only [hbefore, false_or, howner', Option.some.injEq, exists_eq_left', hroot, exists_eq',
      true_and, Bool.false_eq_true]

/-! ## Section 5: Where the two agree -/

theorem mem_of_mapM {α β : Type} {f : α → Option β} {xs : List α} {ys : List β}
    (h : xs.mapM f = some ys) {x : α} (hx : x ∈ xs) : ∃ y ∈ ys, f x = some y := by
  induction xs generalizing ys with
  | nil => simp at hx
  | cons x' xs ih =>
    simp only [List.mapM_cons, Option.bind_eq_bind, Option.bind_eq_some_iff, Option.pure_def,
      Option.some.injEq] at h
    obtain ⟨y', hy', ys', hys', rfl⟩ := h
    rcases List.mem_cons.mp hx with rfl | hx
    · exact ⟨y', List.mem_cons_self, hy'⟩
    · obtain ⟨y, hy, hfy⟩ := ih hys' hx
      exact ⟨y, List.mem_cons_of_mem _ hy, hfy⟩

theorem gid_of_lookupGroup {gid_idx : Nat} {g : Group} (h : D.lookupGroup gid_idx = some g) :
    g.gid_idx = gid_idx := by
  simpa using List.find?_some h

theorem mem_of_trust (hgroups : D.GroupMembershipList u = some ugroups)
    {g : Group} (htrust : 0 < D.Trust g u) : g.gid_idx ∈ ugroups.map (·.gid_idx) := by
  unfold Trust at htrust
  split at htrust
  swap
  · exact absurd htrust (by decide)
  cases hfind : D.group_membership.find? fun m => m.uid_idx = u.uid_idx ∧ m.gid_idx = g.gid_idx with
  | none =>
    rw [hfind] at htrust
    exact absurd htrust (by decide)
  | some m =>
    rw [hfind] at htrust
    have hm := List.find?_some hfind
    rw [decide_eq_true_eq] at hm
    have hne : m.trust ≠ .none := by
      intro heq
      dsimp only at htrust
      rw [heq] at htrust
      exact absurd htrust (by decide)
    have hmem : m ∈ D.group_membership.filter fun m => m.uid_idx = u.uid_idx ∧ m.trust ≠ .none :=
      List.mem_filter.mpr ⟨List.mem_of_find?_eq_some hfind, by simp [hm.1, hne]⟩
    obtain ⟨g', hg', hlookup⟩ := mem_of_mapM hgroups hmem
    exact List.mem_map.mpr ⟨g', hg', by rw [gid_of_lookupGroup hlookup, hm.2]⟩

theorem entryAccess_selects (hlocal : u.IsLocal = true)
    (hgroups : D.GroupMembershipList u = some ugroups) {e : LeasePermission} {access : Nat}
    (h : D.entryAccess u e = some access) :
    userWclause u ugroups e = true ∧ (LEASE_ACCESS_MODIFY ≤ access → e.allow_modify = true) := by
  have hmodify : ∀ modify : Bool, (if modify = true then LEASE_ACCESS_MODIFY else LEASE_ACCESS_READ) = access →
      LEASE_ACCESS_MODIFY ≤ access → modify = true := by
    rintro modify rfl hle
    cases modify with
    | false => exact absurd hle (by decide)
    | true => rfl
  unfold userWclause
  rw [if_pos hlocal]
  unfold entryAccess at h
  dsimp only at h
  cases htype : e.permission_type with
  | global =>
    have haccess : LEASE_ACCESS_READ = access := by
      simp only [htype, hlocal, if_true, Bool.false_eq_true, if_false] at h
      split at h
      · exact Option.some.inj h
      · split at h
        · exact Option.some.inj h
        · cases h
    refine ⟨by simp, fun hle => ?_⟩
    rw [← haccess] at hle
    exact absurd hle (by decide)
  | group =>
    simp only [htype] at h
    cases hlookup : D.lookupGroup e.permission_idx with
    | none =>
      rw [hlookup] at h
      cases h
    | some g =>
      rw [hlookup] at h
      dsimp only at h
      split at h
      swap
      · cases h
      rename_i htrust
      have hpos : 0 < D.Trust g u := by
        unfold TBMinTrust PROJMEMBERTRUST_LOCALROOT at htrust
        have := of_decide_eq_true htrust
        omega
      have hmem := mem_of_trust hgroups hpos
      rw [gid_of_lookupGroup hlookup] at hmem
      exact ⟨by simp [hmem], hmodify _ (Option.some.inj h)⟩
  | user =>
    simp only [htype] at h
    cases hlookup : D.lookupUser e.permission_idx with
    | none =>
      rw [hlookup] at h
      cases h
    | some dbusr =>
      rw [hlookup] at h
      dsimp only at h
      split at h
      swap
      · cases h
      rename_i hsame
      have hidx : dbusr.uid_idx = e.permission_idx := by simpa using List.find?_some hlookup
      exact ⟨by simp [← hidx, hsame], hmodify _ (Option.some.inj h)⟩

theorem Grants.selects (hlocal : u.IsLocal = true) (hlists : D.Lists u type) {access : Nat}
    (h : D.Grants u l access) : D.Selects u l fun e => LEASE_ACCESS_MODIFY ≤ access → e.allow_modify = true := by
  obtain ⟨⟨ugroups, hgroups, -⟩, -⟩ := hlists
  obtain ⟨-, e, he, this_access, hentry, hle⟩ := h
  obtain ⟨hclause, hmodify⟩ := entryAccess_selects hlocal hgroups hentry
  exact ⟨ugroups, hgroups, e, he, hclause, fun hm => hmodify (hm.trans hle)⟩

theorem Selects.imp {P Q : LeasePermission → Prop} (h : D.Selects u l P) (himp : ∀ e, P e → Q e) :
    D.Selects u l Q := by
  obtain ⟨ugroups, hgroups, e, he, hclause, hP⟩ := h
  exact ⟨ugroups, hgroups, e, he, hclause, himp e hP⟩

theorem Grants.mono {access access' : Nat} (hle : access' ≤ access) (h : D.Grants u l access) :
    D.Grants u l access' := by
  obtain ⟨hgroup, e, he, this_access, hentry, hthis⟩ := h
  exact ⟨hgroup, e, he, this_access, hentry, hle.trans hthis⟩

variable (D u l type)

/-- The list and the check agree on a lease. The list asks for root in the project and takes every entry for
    a group of the user or for all; the check asks for root in the group of the lease, wants `local_root` in
    the group of an entry, and reads only. And with a type, the list has no entries at all. -/
structure Agree : Prop where
  unlisted : ¬D.Lists u type → l.owner_uid ≠ u.uid ∧ ¬D.GroupRoot u l ∧ ¬D.Grants u l LEASE_ACCESS_READ
  groupRoot : D.Lists u type → l.owner_uid ≠ u.uid → D.GroupRoot u l →
    D.ProjectRoot u l ∨ type = none ∧ D.Selects u l fun e => e.allow_modify = true
  projectRoot : D.Lists u type → l.owner_uid ≠ u.uid → ¬D.GroupRoot u l → D.ProjectRoot u l →
    D.Grants u l LEASE_ACCESS_MODIFY
  read : D.Lists u type → l.owner_uid ≠ u.uid → ¬D.GroupRoot u l → ¬D.ProjectRoot u l → type = none →
    (D.Selects u l fun _ => True) → D.Grants u l LEASE_ACCESS_READ
  modify : D.Lists u type → l.owner_uid ≠ u.uid → ¬D.GroupRoot u l → ¬D.ProjectRoot u l → type = none →
    (D.Selects u l fun e => e.allow_modify = true) → D.Grants u l LEASE_ACCESS_MODIFY
  typed : D.Lists u type → l.owner_uid ≠ u.uid → ¬D.GroupRoot u l → ¬D.ProjectRoot u l → type ≠ none →
    ¬D.Grants u l LEASE_ACCESS_READ

end

/-- **Two ways to the permissions.** The list of a local user who is no admin has a lease, and the
    right to modify it, exactly if the check says so, where the two agree on the lease. -/
theorem allowedLeases_iff_accessCheck (D : LeaseTables) {u : User} (hlocal : u.IsLocal = true)
    {l : Lease} (hl : l ∈ D.project_leases) (type : Option LeaseType) :
    (((∃ ls, D.AllowedLeases (.user u) type = some ls ∧ ∃ modify, (l, modify) ∈ ls) ↔
        D.AccessCheck false l u LEASE_ACCESS_READ = some true) ∧
      ((∃ ls, D.AllowedLeases (.user u) type = some ls ∧ (l, true) ∈ ls) ↔
        D.AccessCheck false l u LEASE_ACCESS_MODIFY = some true)) ↔ D.Agree u l type := by
  rw [listed_iff hlocal hl, listed_modify_iff hlocal hl,
    accessCheck_iff (by decide) (by decide), accessCheck_iff (by decide) (by decide)]
  have hread : D.Grants u l LEASE_ACCESS_MODIFY → D.Grants u l LEASE_ACCESS_READ :=
    Grants.mono (by decide)
  have hall : (D.Selects u l fun e => e.allow_modify = true) → D.Selects u l fun _ => True :=
    fun h => h.imp fun _ _ => trivial
  have hselects : D.Lists u type → D.Grants u l LEASE_ACCESS_READ → D.Selects u l fun _ => True :=
    fun hlists h => (h.selects hlocal hlists).imp fun _ _ => trivial
  have hmodify : D.Lists u type → D.Grants u l LEASE_ACCESS_MODIFY →
      D.Selects u l fun e => e.allow_modify = true :=
    fun hlists h => (h.selects hlocal hlists).imp fun _ he => he le_rfl
  constructor
  · rintro ⟨h, h'⟩
    constructor
    · intro hlists
      exact ⟨fun ho => hlists (h.mpr (.inl ho)).1, fun hg => hlists (h.mpr (.inr (.inl hg))).1,
        fun hr => hlists (h.mpr (.inr (.inr hr))).1⟩
    · intro _ ho hg
      exact (h'.mpr (.inr (.inl hg))).2.resolve_left ho
    · intro hlists ho hg hp
      exact ((h'.mp ⟨hlists, .inr (.inl hp)⟩).resolve_left ho).resolve_left hg
    · intro hlists ho hg _ hnone hs
      exact ((h.mp ⟨hlists, .inr (.inr ⟨hnone, hs⟩)⟩).resolve_left ho).resolve_left hg
    · intro hlists ho hg _ hnone hs
      exact ((h'.mp ⟨hlists, .inr (.inr ⟨hnone, hs⟩)⟩).resolve_left ho).resolve_left hg
    · intro _ ho _ hp hnone hr
      exact hnone (((h.mpr (.inr (.inr hr))).2.resolve_left ho).resolve_left hp).1
  · intro hagree
    have hlisted : (l.owner_uid = u.uid ∨ D.GroupRoot u l ∨ D.Grants u l LEASE_ACCESS_READ) → D.Lists u type := by
      intro h
      by_contra hnot
      obtain ⟨ho, hg, hr⟩ := hagree.unlisted hnot
      rcases h with h | h | h
      · exact ho h
      · exact hg h
      · exact hr h
    by_cases hlists : D.Lists u type
    swap
    · exact ⟨⟨fun h => absurd h.1 hlists, fun h => absurd (hlisted h) hlists⟩,
        ⟨fun h => absurd h.1 hlists, fun h => absurd (hlisted (h.imp_right (Or.imp_right hread))) hlists⟩⟩
    by_cases ho : l.owner_uid = u.uid
    · simp [hlists, ho]
    by_cases hg : D.GroupRoot u l
    · have hmod := hagree.groupRoot hlists ho hg
      have hany := hmod.imp_right (And.imp_right hall)
      simp [hlists, ho, hg, hmod, hany]
    by_cases hp : D.ProjectRoot u l
    · have hm := hagree.projectRoot hlists ho hg hp
      simp [hlists, ho, hg, hp, hm, hread hm]
    by_cases hnone : type = none
    · subst hnone
      have hr := hagree.read hlists ho hg hp rfl
      have hm := hagree.modify hlists ho hg hp rfl
      simp only [hlists, ho, hg, hp, true_and, false_or]
      exact ⟨⟨hr, hselects hlists⟩, ⟨hm, hmodify hlists⟩⟩
    · have hr := hagree.typed hlists ho hg hp hnone
      have hm : ¬D.Grants u l LEASE_ACCESS_MODIFY := fun h => hr (hread h)
      simp [ho, hg, hp, hnone, hr, hm]

/-- A user of a project, who is trusted in it as far as `user`. -/
def alice : User := ⟨1, "alice", true, none⟩

/-- A lease of someone else, which the members of the project may read. -/
def sharedLease : Lease := ⟨1, "bob", "proj", "proj", .stdataset⟩

/-- The tables with a user of some trust in the project of a lease. -/
def sharedWith (trust : TrustString) : LeaseTables where
  users := [alice]
  groups := [⟨7, 7, "proj", "proj"⟩]
  group_membership := [⟨1, 7, trust⟩]
  project_leases := [sharedLease]
  lease_permissions := [⟨1, .group, 7, false⟩]
  lease_key := by decide

/-- A user with `local_root` may read the lease. -/
theorem allowedLeases_iff_accessCheck_shared :
    (((∃ ls, (sharedWith .local_root).AllowedLeases (.user alice) none = some ls ∧
          ∃ modify, (sharedLease, modify) ∈ ls) ↔
        (sharedWith .local_root).AccessCheck false sharedLease alice LEASE_ACCESS_READ = some true) ∧
      ((∃ ls, (sharedWith .local_root).AllowedLeases (.user alice) none = some ls ∧ (sharedLease, true) ∈ ls) ↔
        (sharedWith .local_root).AccessCheck false sharedLease alice LEASE_ACCESS_MODIFY = some true)) ↔
      (sharedWith .local_root).Agree alice sharedLease none :=
  allowedLeases_iff_accessCheck (sharedWith .local_root) (by decide) (by decide) none

theorem listed_without_access : (sharedWith .user).AllowedLeases (.user alice) none = some [(sharedLease, false)] ∧
      (sharedWith .user).AccessCheck false sharedLease alice LEASE_ACCESS_READ = some false := by
  decide

end LeaseTables

end Emulab.Db
