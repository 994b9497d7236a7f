import Emulab.Assign.Hosting

/-! # The lists of a pclass

  The annealer looks for pnodes in the lists of their pclasses. `add_node` and
  `remove_node` keep the lists: a pnode is in a list once at most, one without
  a type is in all lists of its pclass, and one with a dynamic type is in no
  list of another dynamic type.
-/

namespace Emulab.Assign

open List Option

variable {R : Type}

/-! ## Section 1: The lists -/

def HasList (pc : Nat → Pclass) (c : Nat) (type : String) : Prop :=
  type ∈ (pc c).members.map Prod.fst

def Listed (pc : Nat → Pclass) (c : Nat) (type : String) (p : PVertex) : Prop :=
  ∃ m ∈ (pc c).members, m.1 = type ∧ p ∈ m.2

theorem Listed.hasList {pc : Nat → Pclass} {c : Nat} {type : String} {p : PVertex}
    (h : Listed pc c type p) : HasList pc c type := by
  obtain ⟨m, hm, rfl, -⟩ := h
  exact mem_map_of_mem hm

/-- A type has one list, and a pnode is in a list once at most. -/
structure ListsNodup (pc : Nat → Pclass) : Prop where
  keys : ∀ c, ((pc c).members.map Prod.fst).Nodup
  lists : ∀ c, ∀ m ∈ (pc c).members, m.2.Nodup

theorem ListsNodup.mem_of_listed {pc : Nat → Pclass} (h : ListsNodup pc) {c : Nat}
    {m : String × List PVertex} (hm : m ∈ (pc c).members) {p : PVertex} (hp : Listed pc c m.1 p) : p ∈ m.2 := by
  obtain ⟨m', hm', hkey, hmem⟩ := hp
  obtain rfl := inj_on_of_nodup_map (h.keys c) hm' hm hkey
  exact hmem

/-- A list of the members is changed at the place of `pv` only. -/
structure MovesOnly (pv : PVertex) (m m' : String × List PVertex) : Prop where
  key : m'.1 = m.1
  nodup : m.2.Nodup → m'.2.Nodup
  others : ∀ q, q ≠ pv → (q ∈ m'.2 ↔ q ∈ m.2)

theorem MovesOnly.refl (pv : PVertex) (m : String × List PVertex) : MovesOnly pv m m :=
  ⟨rfl, id, fun _ _ => Iff.rfl⟩

/-- The list of another type, of another pclass or the place of another pnode are as they were. -/
structure Relists (pv : PVertex) (c : Nat) (pc pc' : Nat → Pclass) : Prop where
  keys : ∀ c', (pc' c').members.map Prod.fst = (pc c').members.map Prod.fst
  lists : ∀ m ∈ (pc c).members, ∃ m' ∈ (pc' c).members, MovesOnly pv m m'
  lists_of : ∀ m' ∈ (pc' c).members, ∃ m ∈ (pc c).members, MovesOnly pv m m'
  others : ∀ c', c' ≠ c → (pc' c').members = (pc c').members

section

variable {pv : PVertex} {c : Nat} {pc pc' : Nat → Pclass}

theorem Relists.hasList (h : Relists pv c pc pc') {c' : Nat} {type : String} :
    HasList pc' c' type ↔ HasList pc c' type := by
  unfold HasList
  rw [h.keys]

theorem Relists.listsNodup (h : Relists pv c pc pc') (hpc : ListsNodup pc) : ListsNodup pc' := by
  refine ⟨fun c' => ?_, fun c' m hm => ?_⟩
  · rw [h.keys]
    exact hpc.keys c'
  · by_cases hc : c' = c
    · subst hc
      obtain ⟨m₀, hm₀, hmoves⟩ := h.lists_of m hm
      exact hmoves.nodup (hpc.lists c' m₀ hm₀)
    · rw [h.others c' hc] at hm
      exact hpc.lists c' m hm

theorem Relists.listed_of_ne (h : Relists pv c pc pc') {c' : Nat} {type : String} {q : PVertex}
    (hne : c' ≠ c ∨ q ≠ pv) : Listed pc' c' type q ↔ Listed pc c' type q := by
  unfold Listed
  by_cases hc : c' = c
  · subst hc
    have hq := hne.resolve_left (· rfl)
    constructor
    · rintro ⟨m', hm', hkey, hmem⟩
      obtain ⟨m, hm, hmoves⟩ := h.lists_of m' hm'
      exact ⟨m, hm, hmoves.key ▸ hkey, (hmoves.others q hq).mp hmem⟩
    · rintro ⟨m, hm, hkey, hmem⟩
      obtain ⟨m', hm', hmoves⟩ := h.lists m hm
      exact ⟨m', hm', hmoves.key.trans hkey, (hmoves.others q hq).mpr hmem⟩
  · rw [h.others c' hc]

end

/-! ## Section 2: What happens to the lists -/

/-- `pclass_set` takes a pnode out of the list for a type. -/
def SetErases (env : Env R) (pv : PVertex) (p : PnodeState) (type : String) : Prop :=
  if type = p.currentType then
    (∃ tr, (env.pg.pnode pv).findType type = some tr ∧ p.load type = tr.maxLoad) ∨
      (env.pg.pnode pv).myOwnClass.isSome = true
  else
    ∃ tr, (env.pg.pnode pv).findType type = some tr ∧ tr.staticType = false

section

variable {env : Env R} {pv : PVertex} {c : Nat} {p : PnodeState} {pc pc' : Nat → Pclass}
  {m m' : String × List PVertex}

theorem movesOnly_erase (pv : PVertex) (m : String × List PVertex) : MovesOnly pv m (m.1, m.2.erase pv) :=
  ⟨rfl, fun h => h.erase pv, fun _ hq => mem_erase_of_ne hq⟩

theorem pclassSetMember_moves (hrecord : p.currentTypeRecord = some p.currentType)
    (h : pclassSetMember env pv p m = .ok m') :
    MovesOnly pv m m' ∧ (m.2.Nodup → (pv ∈ m'.2 ↔ pv ∈ m.2 ∧ ¬SetErases env pv p m.1)) := by
  unfold pclassSetMember at h
  unfold SetErases
  by_cases hcurrent : m.1 = p.currentType
  · rw [if_pos hcurrent, hrecord, bind_some] at h
    rw [if_pos hcurrent, hcurrent]
    cases hfind : (env.pg.pnode pv).findType p.currentType with
    | none =>
      rw [hfind] at h
      cases h
    | some tr =>
      rw [hfind] at h
      dsimp only [map_some] at h
      by_cases hfull : p.load p.currentType = tr.maxLoad ∨ (env.pg.pnode pv).myOwnClass.isSome = true
      · rw [if_pos hfull] at h
        obtain rfl := Except.ok.inj h
        refine ⟨movesOnly_erase pv m, fun hnodup => iff_of_false hnodup.not_mem_erase ?_⟩
        exact fun hmem => hmem.2 (hfull.imp_left fun hload => ⟨tr, rfl, hload⟩)
      · rw [if_neg hfull] at h
        obtain rfl := Except.ok.inj h
        refine ⟨.refl pv m, fun _ => (and_iff_left fun herase => hfull ?_).symm⟩
        refine herase.imp_left fun ⟨tr', htr', hload⟩ => ?_
        obtain rfl := some.inj htr'
        exact hload
  · rw [if_neg hcurrent] at h
    rw [if_neg hcurrent]
    cases hfind : (env.pg.pnode pv).findType m.1 with
    | none =>
      rw [hfind] at h
      cases h
    | some tr =>
      rw [hfind] at h
      dsimp only at h
      obtain rfl := Except.ok.inj h
      cases hstatic : tr.staticType with
      | true =>
        refine ⟨.refl pv m, fun _ => (and_iff_left fun ⟨tr', htr', hdynamic⟩ => ?_).symm⟩
        obtain rfl := some.inj htr'
        rw [hstatic] at hdynamic
        cases hdynamic
      | false =>
        refine ⟨movesOnly_erase pv m, fun hnodup => iff_of_false hnodup.not_mem_erase ?_⟩
        exact fun hmem => hmem.2 ⟨tr, rfl, hstatic⟩

theorem pclassUnsetMember_moves (h : pclassUnsetMember pv p m = .ok m') :
    MovesOnly pv m m' ∧ (pv ∈ m'.2 ↔ pv ∈ m.2 ∨ m.1 = p.currentType) := by
  unfold pclassUnsetMember at h
  split at h
  · rename_i hcurrent
    split at h
    · cases h
    · split at h
      · split at h
        · obtain rfl := Except.ok.inj h
          refine ⟨⟨rfl, fun hnodup => ?_, fun q hq => by simp [hq]⟩, by simp [hcurrent.1]⟩
          rw [nodup_append]
          refine ⟨hnodup, nodup_singleton pv, fun a ha b hb => ?_⟩
          rintro rfl
          exact hcurrent.2 (mem_singleton.mp hb ▸ ha)
        · obtain rfl := Except.ok.inj h
          exact ⟨⟨rfl, fun hnodup => nodup_cons.mpr ⟨hcurrent.2, hnodup⟩,
            fun q hq => by simp [hq]⟩, by simp [hcurrent.1]⟩
      · cases h
  · rename_i hnot
    obtain rfl := Except.ok.inj h
    refine ⟨.refl pv m, (or_iff_left_of_imp fun hcurrent => ?_).symm⟩
    by_contra hmem
    exact hnot ⟨hcurrent, hmem⟩

theorem SetsPclass.relists (h : SetsPclass env pv c p pc pc')
    (hrecord : p.currentTypeRecord = some p.currentType) : Relists pv c pc pc' where
  keys c' := by
    by_cases hc : c' = c
    · rw [hc, h.keys]
    · rw [h.others c' hc]
  lists m hm := by
    obtain ⟨m', hm', hset⟩ := h.lists m hm
    exact ⟨m', hm', (pclassSetMember_moves hrecord hset).1⟩
  lists_of m' hm' := by
    obtain ⟨m, hm, hset⟩ := h.lists_of m' hm'
    exact ⟨m, hm, (pclassSetMember_moves hrecord hset).1⟩
  others := h.others

theorem SetsPclass.listed (h : SetsPclass env pv c p pc pc')
    (hrecord : p.currentTypeRecord = some p.currentType) (hpc : ListsNodup pc) {type : String} :
    Listed pc' c type pv ↔ Listed pc c type pv ∧ ¬SetErases env pv p type := by
  constructor
  · rintro ⟨m', hm', rfl, hmem⟩
    obtain ⟨m, hm, hset⟩ := h.lists_of m' hm'
    obtain ⟨hmoves, hiff⟩ := pclassSetMember_moves hrecord hset
    have hin := (hiff (hpc.lists c m hm)).mp hmem
    rw [hmoves.key]
    exact ⟨⟨m, hm, rfl, hin.1⟩, hin.2⟩
  · rintro ⟨⟨m, hm, rfl, hmem⟩, hkept⟩
    obtain ⟨m', hm', hset⟩ := h.lists m hm
    obtain ⟨hmoves, hiff⟩ := pclassSetMember_moves hrecord hset
    exact ⟨m', hm', hmoves.key, (hiff (hpc.lists c m hm)).mpr ⟨hmem, hkept⟩⟩

theorem UnsetsPclass.relists (h : UnsetsPclass env pv c p pc pc') : Relists pv c pc pc' where
  keys c' := by
    by_cases hc : c' = c
    · rw [hc, h.keys]
    · rw [h.others c' hc]
  lists m hm := by
    obtain ⟨m', hm', hunset⟩ := h.lists m hm
    exact ⟨m', hm', (pclassUnsetMember_moves hunset).1⟩
  lists_of m' hm' := by
    obtain ⟨m, hm, hunset⟩ := h.lists_of m' hm'
    exact ⟨m, hm, (pclassUnsetMember_moves hunset).1⟩
  others := h.others

theorem UnsetsPclass.listed (h : UnsetsPclass env pv c p pc pc') {type : String} :
    Listed pc' c type pv ↔ Listed pc c type pv ∨ type = p.currentType ∧ HasList pc c type := by
  constructor
  · rintro ⟨m', hm', rfl, hmem⟩
    obtain ⟨m, hm, hunset⟩ := h.lists_of m' hm'
    obtain ⟨hmoves, hiff⟩ := pclassUnsetMember_moves hunset
    rw [hmoves.key]
    rcases hiff.mp hmem with hin | hcurrent
    · exact Or.inl ⟨m, hm, rfl, hin⟩
    · exact Or.inr ⟨hcurrent, mem_map_of_mem hm⟩
  · intro hor
    obtain ⟨m, hm, hkey, hin⟩ : ∃ m ∈ (pc c).members, m.1 = type ∧ (pv ∈ m.2 ∨ m.1 = p.currentType) := by
      rcases hor with ⟨m, hm, hkey, hmem⟩ | ⟨hcurrent, hlist⟩
      · exact ⟨m, hm, hkey, Or.inl hmem⟩
      · obtain ⟨m, hm, hkey⟩ := mem_map.mp hlist
        exact ⟨m, hm, hkey, Or.inr (hkey.trans hcurrent)⟩
    obtain ⟨m', hm', hunset⟩ := h.lists m hm
    obtain ⟨hmoves, hiff⟩ := pclassUnsetMember_moves hunset
    exact ⟨m', hm', hmoves.key.trans hkey, hiff.mpr hin⟩

theorem members_resetMaps (pv : PVertex) (c c' : Nat) (pc : Nat → Pclass) :
    (resetMaps pv c pc c').members = if c' = c then
      (pc c).members.map fun m => if pv ∈ m.2 then m else (m.1, pv :: m.2) else
        (pc c').members := by
  unfold resetMaps
  by_cases hc : c' = c
  · subst hc
    simp
  · simp [hc]

theorem resetMaps_moves (pv : PVertex) (m : String × List PVertex) :
    MovesOnly pv m (if pv ∈ m.2 then m else (m.1, pv :: m.2)) := by
  split
  · exact .refl pv m
  · rename_i hmem
    exact ⟨rfl, fun hnodup => nodup_cons.mpr ⟨hmem, hnodup⟩, fun q hq => by simp [hq]⟩

theorem relists_resetMaps (pv : PVertex) (c : Nat) (pc : Nat → Pclass) : Relists pv c pc (resetMaps pv c pc) where
  keys c' := by
    rw [members_resetMaps]
    split
    · rename_i hc
      subst hc
      rw [List.map_map]
      exact map_congr_left fun m _ => (resetMaps_moves pv m).key
    · rfl
  lists m hm := by
    rw [members_resetMaps, if_pos rfl]
    exact ⟨_, mem_map_of_mem hm, resetMaps_moves pv m⟩
  lists_of m' hm' := by
    rw [members_resetMaps, if_pos rfl] at hm'
    obtain ⟨m, hm, rfl⟩ := mem_map.mp hm'
    exact ⟨m, hm, resetMaps_moves pv m⟩
  others c' hc := by rw [members_resetMaps, if_neg hc]

theorem listed_resetMaps (pv : PVertex) (c : Nat) (pc : Nat → Pclass) {type : String} :
    Listed (resetMaps pv c pc) c type pv ↔ HasList pc c type := by
  constructor
  · exact fun h => (relists_resetMaps pv c pc).hasList.mp h.hasList
  · intro h
    obtain ⟨m, hm, rfl⟩ := mem_map.mp h
    refine ⟨if pv ∈ m.2 then m else (m.1, pv :: m.2), ?_, (resetMaps_moves pv m).key, ?_⟩
    · rw [members_resetMaps, if_pos rfl]
      exact mem_map_of_mem hm
    · split
      · assumption
      · exact mem_cons_self

end

/-! ## Section 3: What a call does to the lists -/

/-- What `generate_pclasses` sets up, and nothing changes. -/
structure GeneratedPclasses (env : Env R) : Prop where
  lists : ListsNodup env.pclass
  listed : ∀ p c, (env.pg.pnode p).myClass = some c → ∀ type, HasList env.pclass c type →
    Listed env.pclass c type p
  hasList : ∀ p c, (env.pg.pnode p).myClass = some c →
    ∀ type, ((env.pg.pnode p).findType type).isSome = true → HasList env.pclass c type
  members : ∀ c type p, Listed env.pclass c type p →
    (env.pg.pnode p).myClass = some c ∨ (env.pg.pnode p).myOwnClass = some c
  own : ∀ p o, (env.pg.pnode p).myOwnClass = some o → (∃ type, Listed env.pclass o type p) ∧
    (env.pclass o).disabled = true ∧ ∃ c, (env.pg.pnode p).myClass = some c
  own_ne : ∀ p q o, (env.pg.pnode p).myOwnClass = some o → (env.pg.pnode q).myClass ≠ some o
  own_inj : ∀ p q o, (env.pg.pnode p).myOwnClass = some o → (env.pg.pnode q).myOwnClass = some o → p = q
  unused : ∀ c, (env.pclass c).usedMembers = 0

section

variable {env : Env R} {vv : VVertex} {pv : PVertex} {s s' : State R} {tr : TypeRecord}

section

variable (h : AddsNode env vv pv s s' tr)
include h

theorem AddsNode.dynamic (hdynamic : tr.staticType = false) (htyped : (s.pnode pv).typed = true →
      (s.pnode pv).currentTypeRecord = some (s.pnode pv).currentType) :
    (s'.pnode pv).typed = true ∧ (s'.pnode pv).currentType = (s.vnode vv).type ∧
      (s'.pnode pv).currentTypeRecord = some (s.vnode vv).type := by
  rw [h.pnode, Function.update_self]
  cases ht : (s.pnode pv).typed with
  | false => simp [PnodeState.host, hdynamic, ht]
  | true =>
    have htype := h.type hdynamic ht
    have hrecord := htyped ht
    simp [PnodeState.host, hdynamic, ht, htype, hrecord]

theorem AddsNode.static (hstatic : tr.staticType = true) : (s'.pnode pv).typed = (s.pnode pv).typed ∧
      (s'.pnode pv).currentType = (s.pnode pv).currentType ∧
        (s'.pnode pv).currentTypeRecord = (s.pnode pv).currentTypeRecord := by
  rw [h.pnode, Function.update_self]
  simp [PnodeState.host, hstatic]

theorem AddsNode.pnode_of_ne {q : PVertex} (hq : q ≠ pv) : s'.pnode q = s.pnode q := by
  rw [h.pnode, Function.update_of_ne hq]

theorem AddsNode.pclass_cases : s'.pclass = s.pclass ∧ (tr.staticType = true ∨ (env.pg.pnode pv).myClass = none) ∨
      tr.staticType = false ∧ ∃ c, (env.pg.pnode pv).myClass = some c ∧
        SetsPclass env pv c (s'.pnode pv) s.pclass s'.pclass := by
  cases hstatic : tr.staticType with
  | true => exact Or.inl ⟨h.same (Or.inl hstatic), Or.inl rfl⟩
  | false =>
    cases hclass : (env.pg.pnode pv).myClass with
    | none => exact Or.inl ⟨h.same (Or.inr hclass), Or.inr rfl⟩
    | some c => exact Or.inr ⟨rfl, c, rfl, h.sets hstatic c hclass⟩

theorem AddsNode.lists (hs : ListsNodup s.pclass) (htyped : (s.pnode pv).typed = true →
      (s.pnode pv).currentTypeRecord = some (s.pnode pv).currentType) :
    ListsNodup s'.pclass ∧ (∀ c type, HasList s'.pclass c type ↔ HasList s.pclass c type) ∧
      ∀ c type q, Listed s'.pclass c type q ↔ Listed s.pclass c type q ∧
        ¬(tr.staticType = false ∧ q = pv ∧ (env.pg.pnode pv).myClass = some c ∧
          SetErases env pv (s'.pnode pv) type) := by
  rcases h.pclass_cases with ⟨heq, hnot⟩ | ⟨hdynamic, c, hclass, hsets⟩
  · rw [heq]
    refine ⟨hs, fun _ _ => Iff.rfl, fun c type q => (and_iff_left ?_).symm⟩
    rintro ⟨hdynamic, -, hclass, -⟩
    rcases hnot with hstatic | hnone
    · rw [hstatic] at hdynamic
      cases hdynamic
    · rw [hnone] at hclass
      cases hclass
  · obtain ⟨-, hcurrent, hrecord⟩ := h.dynamic hdynamic htyped
    have hrelists := hsets.relists (hrecord.trans (congrArg some hcurrent.symm))
    refine ⟨hrelists.listsNodup hs, fun _ _ => hrelists.hasList, fun c' type q => ?_⟩
    by_cases hhere : c' = c ∧ q = pv
    · obtain ⟨rfl, rfl⟩ := hhere
      rw [hsets.listed (hrecord.trans (congrArg some hcurrent.symm)) hs]
      simp [hdynamic, hclass]
    · rw [hrelists.listed_of_ne (by tauto)]
      refine (and_iff_left ?_).symm
      rintro ⟨-, hq, hc, -⟩
      rw [hclass] at hc
      exact hhere ⟨(some.inj hc).symm, hq⟩

end

end

section

variable {env : Env R} {vv : VVertex} {s s' : State R} {type : String} {tr : TypeRecord} {pc : Nat → Pclass}

theorem RemovesNode.pnode_of_ne (h : RemovesNode env vv s s' type tr pc) {q : PVertex}
    (hq : q ≠ (s.vnode vv).assignment) : s'.pnode q = s.pnode q := by
  rw [h.pnode, Function.update_of_ne hq]

theorem Relists.refl (pv : PVertex) (c : Nat) (pc : Nat → Pclass) : Relists pv c pc pc :=
  ⟨fun _ => rfl, fun m hm => ⟨m, hm, .refl pv m⟩, fun m hm => ⟨m, hm, .refl pv m⟩, fun _ _ => rfl⟩

theorem RemovesNode.lists (h : RemovesNode env vv s s' type tr pc) (hs : ListsNodup s.pclass) :
    ListsNodup s'.pclass ∧ (∀ c t, HasList s'.pclass c t ↔ HasList s.pclass c t) ∧
      ∀ c t q, Listed s'.pclass c t q ↔ Listed s.pclass c t q ∨
        q = (s.vnode vv).assignment ∧ (env.pg.pnode q).myClass = some c ∧ HasList s.pclass c t ∧
          ((s.pnode q).totalLoad - (env.vg.vnode vv).typecount = 0 ∨
            tr.staticType = false ∧ t = (s.pnode q).currentType) := by
  cases hclass : (env.pg.pnode (s.vnode vv).assignment).myClass with
  | none =>
    have heq : s'.pclass = s.pclass := by
      refine (h.stays fun hzero => ?_).trans (h.same (Or.inr hclass))
      obtain ⟨c, hc, -⟩ := h.resets hzero
      rw [hclass] at hc
      cases hc
    rw [heq]
    refine ⟨hs, fun _ _ => Iff.rfl, fun c t q => (or_iff_left ?_).symm⟩
    rintro ⟨rfl, hc, -⟩
    rw [hclass] at hc
    cases hc
  | some c =>
    have hunset : Relists (s.vnode vv).assignment c s.pclass pc ∧
        ∀ t, Listed pc c t (s.vnode vv).assignment ↔ Listed s.pclass c t (s.vnode vv).assignment ∨
          tr.staticType = false ∧ t = (s.pnode (s.vnode vv).assignment).currentType ∧ HasList s.pclass c t := by
      cases hstatic : tr.staticType with
      | true =>
        rw [h.same (Or.inl hstatic)]
        exact ⟨.refl _ c _, fun t => by simp⟩
      | false =>
        have hunsets := h.unsets hstatic c hclass
        exact ⟨hunsets.relists, fun t => by rw [hunsets.listed]; simp⟩
    obtain ⟨hrelists, hlisted⟩ := hunset
    have hreset : Relists (s.vnode vv).assignment c pc s'.pclass ∧
        ∀ t, Listed s'.pclass c t (s.vnode vv).assignment ↔ Listed pc c t (s.vnode vv).assignment ∨
          (s.pnode (s.vnode vv).assignment).totalLoad - (env.vg.vnode vv).typecount = 0 ∧ HasList pc c t := by
      by_cases hzero : (s.pnode (s.vnode vv).assignment).totalLoad - (env.vg.vnode vv).typecount = 0
      · obtain ⟨c', hc', heq⟩ := h.resets hzero
        obtain rfl := some.inj (hclass.symm.trans hc')
        rw [heq]
        refine ⟨relists_resetMaps _ c pc, fun t => ?_⟩
        rw [listed_resetMaps]
        simp only [hzero, true_and]
        exact (or_iff_right_of_imp Listed.hasList).symm
      · rw [h.stays hzero]
        exact ⟨.refl _ c pc, fun t => by simp [hzero]⟩
    obtain ⟨hrelists', hlisted'⟩ := hreset
    refine ⟨hrelists'.listsNodup (hrelists.listsNodup hs),
      fun c' t => hrelists'.hasList.trans hrelists.hasList, fun c' t q => ?_⟩
    by_cases hhere : c' = c ∧ q = (s.vnode vv).assignment
    · obtain ⟨rfl, rfl⟩ := hhere
      rw [hlisted', hlisted, hrelists.hasList]
      simp only [hclass, true_and]
      tauto
    · rw [hrelists'.listed_of_ne (by tauto), hrelists.listed_of_ne (by tauto)]
      refine (or_iff_left ?_).symm
      rintro ⟨rfl, hc, -⟩
      rw [hclass] at hc
      exact hhere ⟨(some.inj hc).symm, rfl⟩

end

/-! ## Section 4: The invariant -/

/-- The vnodes of a type are counted by the pclass of the pnode. -/
def isDynamic (env : Env R) (p : PVertex) (type : String) : Bool :=
  match (env.pg.pnode p).findType type with
  | some tr => !tr.staticType
  | none => false

/-- The vnodes that are assigned to members of a pclass through dynamic types. -/
def dynamicVnodes (env : Env R) (vn : VVertex → VnodeState) (c : Nat) : List VVertex :=
  mappedVnodes env vn fun n =>
    decide ((env.pg.pnode n.assignment).myClass = some c) && isDynamic env n.assignment n.type

structure PclassInv (env : Env R) (s : State R) : Prop where
  /-- A pnode has the types of the vnodes that it hosts. -/
  hasType : ∀ v, (s.vnode v).assigned = true →
    ∃ tr, (env.pg.pnode (s.vnode v).assignment).findType (s.vnode v).type = some tr
  total : ∀ p, (s.pnode p).totalLoad = ((hosted env s.vnode p).map fun v => (env.vg.vnode v).typecount).sum
  empty : ∀ p, hosted env s.vnode p = [] → (s.pnode p).typed = false
  typed : ∀ p, (s.pnode p).typed = true → (s.pnode p).currentTypeRecord = some (s.pnode p).currentType ∧
      ∃ tr, (env.pg.pnode p).findType (s.pnode p).currentType = some tr ∧ tr.staticType = false
  lists : ListsNodup s.pclass
  hasList : ∀ c type, HasList s.pclass c type ↔ HasList env.pclass c type
  members : ∀ c type p, Listed s.pclass c type p →
    (env.pg.pnode p).myClass = some c ∨ (env.pg.pnode p).myOwnClass = some c
  own : ∀ p o, (env.pg.pnode p).myOwnClass = some o → ∃ type, Listed s.pclass o type p
  /-- A pnode without a type of its own is in all lists. -/
  untyped : ∀ p c, (env.pg.pnode p).myClass = some c → (s.pnode p).typed = false →
    ∀ type, HasList s.pclass c type → Listed s.pclass c type p
  /-- The lists of static types are never left. -/
  static : ∀ p c, (env.pg.pnode p).myClass = some c → ∀ type tr,
    (env.pg.pnode p).findType type = some tr → tr.staticType = true → Listed s.pclass c type p
  /-- One with a dynamic type is in no list of another one. -/
  others : ∀ p c, (env.pg.pnode p).myClass = some c → (s.pnode p).typed = true →
    ∀ type tr, type ≠ (s.pnode p).currentType → (env.pg.pnode p).findType type = some tr →
      tr.staticType = false → ¬Listed s.pclass c type p
  used : ∀ c, (s.pclass c).usedMembers = (dynamicVnodes env s.vnode c).length

theorem AddsNode.usedMembers {env : Env R} {vv : VVertex} {pv : PVertex} {s s' : State R}
    {tr : TypeRecord} (h : AddsNode env vv pv s s' tr) (c : Nat) :
    (s'.pclass c).usedMembers = (s.pclass c).usedMembers +
      if (env.pg.pnode pv).myClass = some c ∧ tr.staticType = false then 1 else 0 := by
  rcases h.pclass_cases with ⟨heq, hnot⟩ | ⟨hdynamic, c', hclass, hsets⟩
  · rw [heq, if_neg, Int.add_zero]
    rintro ⟨hclass, hdynamic⟩
    rcases hnot with hstatic | hnone
    · rw [hstatic] at hdynamic
      cases hdynamic
    · rw [hnone] at hclass
      cases hclass
  · rw [hsets.used, hclass]
    simp [hdynamic, eq_comm]

theorem RemovesNode.usedMembers {env : Env R} {vv : VVertex} {s s' : State R} {type : String}
    {tr : TypeRecord} {pc : Nat → Pclass} (h : RemovesNode env vv s s' type tr pc) (c : Nat) :
    (s'.pclass c).usedMembers = (s.pclass c).usedMembers -
      if (env.pg.pnode (s.vnode vv).assignment).myClass = some c ∧ tr.staticType = false then 1
      else 0 := by
  have hreset : (s'.pclass c).usedMembers = (pc c).usedMembers := by
    by_cases hzero : (s.pnode (s.vnode vv).assignment).totalLoad - (env.vg.vnode vv).typecount = 0
    · obtain ⟨c', -, heq⟩ := h.resets hzero
      rw [heq]
      unfold resetMaps
      by_cases hc : c = c'
      · subst hc
        simp
      · simp [hc]
    · rw [h.stays hzero]
  rw [hreset]
  cases hclass : (env.pg.pnode (s.vnode vv).assignment).myClass with
  | none => simp [h.same (Or.inr hclass)]
  | some c' =>
    cases hstatic : tr.staticType with
    | true => simp [h.same (Or.inl hstatic)]
    | false =>
      rw [(h.unsets hstatic c' hclass).used]
      simp [eq_comm]

section

variable {env : Env R} {vv : VVertex} {pv : PVertex} {s s' : State R}

theorem PclassInv.recordOf (hinv : PclassInv env s) (hassigned : (s.vnode vv).assigned = true)
    {type : String} {tr : TypeRecord} (h : recordOf env vv (s.vnode vv).assignment s = .ok (type, tr)) :
    type = (s.vnode vv).type ∧ (env.pg.pnode (s.vnode vv).assignment).findType (s.vnode vv).type = some tr := by
  obtain ⟨tr', hfind⟩ := hinv.hasType vv hassigned
  unfold Assign.recordOf at h
  dsimp only at h
  rw [hfind] at h
  obtain ⟨rfl, rfl⟩ := Prod.mk.inj (Except.ok.inj h)
  exact ⟨rfl, hfind⟩

theorem PclassInv.add (hgen : GeneratedPclasses env) (hinv : PclassInv env s)
    (hvv : vv ∈ env.vg.vertices) {tr : TypeRecord} (h : AddsNode env vv pv s s' tr) : PclassInv env s' := by
  have hmaps := h.maps
  have hrecord := fun ht => (hinv.typed pv ht).1
  obtain ⟨hnodup, hlist, hlisted⟩ := h.lists hinv.lists hrecord
  have htype := h.vnode_type
  -- what is known of the pnode that gets the vnode
  have hcurrent : (s'.pnode pv).typed = true → (s'.pnode pv).currentTypeRecord = some (s'.pnode pv).currentType ∧
        ∃ tr, (env.pg.pnode pv).findType (s'.pnode pv).currentType = some tr ∧ tr.staticType = false := by
    intro ht
    cases hstatic : tr.staticType with
    | false =>
      obtain ⟨-, hcur, hrec⟩ := h.dynamic hstatic hrecord
      rw [hcur, hrec]
      exact ⟨rfl, tr, h.record, hstatic⟩
    | true =>
      obtain ⟨hty, hcur, hrec⟩ := h.static hstatic
      rw [hcur, hrec]
      exact hinv.typed pv (hty ▸ ht)
  constructor
  case hasType =>
    intro v hv
    by_cases hvv' : v = vv
    · subst hvv'
      rw [hmaps.assignment, htype]
      exact ⟨tr, h.record⟩
    · rw [hmaps.others v hvv'] at hv ⊢
      exact hinv.hasType v hv
  case total =>
    intro p
    by_cases hp : p = pv
    · subst hp
      rw [((hmaps.hosted_perm hvv).map _).sum_eq, map_cons, sum_cons, ← hinv.total, h.pnode, Function.update_self]
      dsimp only [PnodeState.host]
      omega
    · rw [h.pnode_of_ne hp, hmaps.hosted_of_ne hp]
      exact hinv.total p
  case empty =>
    intro p hempty
    by_cases hp : p = pv
    · subst hp
      have hperm := hmaps.hosted_perm hvv
      rw [hempty] at hperm
      exact absurd hperm.symm (not_perm_cons_nil)
    · rw [hmaps.hosted_of_ne hp] at hempty
      rw [h.pnode_of_ne hp]
      exact hinv.empty p hempty
  case typed =>
    intro p ht
    by_cases hp : p = pv
    · subst hp
      exact hcurrent ht
    · rw [h.pnode_of_ne hp] at ht ⊢
      exact hinv.typed p ht
  case lists =>
    exact hnodup
  case hasList =>
    exact fun c type => (hlist c type).trans (hinv.hasList c type)
  case members =>
    exact fun c type p hl => hinv.members c type p ((hlisted c type p).mp hl).1
  case own =>
    intro p o ho
    obtain ⟨type, hl⟩ := hinv.own p o ho
    refine ⟨type, (hlisted o type p).mpr ⟨hl, ?_⟩⟩
    rintro ⟨-, -, hclass, -⟩
    exact hgen.own_ne p pv o ho hclass
  case untyped =>
    intro p c hclass ht type hhas
    refine (hlisted c type p).mpr ⟨?_, ?_⟩
    · refine hinv.untyped p c hclass ?_ type ((hlist c type).mp hhas)
      by_cases hp : p = pv
      · subst hp
        cases hstatic : tr.staticType with
        | false =>
          rw [(h.dynamic hstatic hrecord).1] at ht
          cases ht
        | true => rw [← (h.static hstatic).1, ht]
      · rw [← h.pnode_of_ne hp, ht]
    · rintro ⟨hdynamic, rfl, -, -⟩
      rw [(h.dynamic hdynamic hrecord).1] at ht
      cases ht
  case static =>
    intro p c hclass type tr' hfind hstatic
    refine (hlisted c type p).mpr ⟨hinv.static p c hclass type tr' hfind hstatic, ?_⟩
    rintro ⟨hdynamic, rfl, -, herase⟩
    unfold SetErases at herase
    split at herase
    · rename_i heq
      -- the current type is dynamic
      rw [heq, (h.dynamic hdynamic hrecord).2.1, h.record] at hfind
      obtain rfl := some.inj hfind
      rw [hdynamic] at hstatic
      cases hstatic
    · obtain ⟨tr₂, hfind₂, hdynamic₂⟩ := herase
      rw [hfind] at hfind₂
      obtain rfl := some.inj hfind₂
      rw [hstatic] at hdynamic₂
      cases hdynamic₂
  case others =>
    intro p c hclass ht type tr' hne hfind hdynamic' hl
    obtain ⟨hl, hkept⟩ := (hlisted c type p).mp hl
    by_cases hp : p = pv
    · subst hp
      cases hstatic : tr.staticType with
      | false =>
        refine hkept ⟨hstatic, rfl, hclass, ?_⟩
        unfold SetErases
        rw [if_neg hne]
        exact ⟨tr', hfind, hdynamic'⟩
      | true =>
        obtain ⟨hty, hcur, -⟩ := h.static hstatic
        rw [hcur] at hne
        rw [hty] at ht
        exact hinv.others p c hclass ht type tr' hne hfind hdynamic' hl
    · rw [h.pnode_of_ne hp] at ht hne
      exact hinv.others p c hclass ht type tr' hne hfind hdynamic' hl
  case used =>
    intro c
    have hdynamic : isDynamic env pv (s.vnode vv).type = !tr.staticType := by
      unfold isDynamic
      rw [h.record]
    rw [h.usedMembers, hinv.used]
    by_cases huse : (env.pg.pnode pv).myClass = some c ∧ tr.staticType = false
    · have hperm : (dynamicVnodes env s'.vnode c).Perm (vv :: dynamicVnodes env s.vnode c) := by
        refine hmaps.mapped_perm hvv ?_
        rw [hmaps.assignment, htype, hdynamic]
        simp [huse]
      rw [hperm.length_eq, if_pos huse]
      simp
    · have heq : dynamicVnodes env s'.vnode c = dynamicVnodes env s.vnode c := by
        refine hmaps.mapped_eq ?_
        rw [hmaps.assignment, htype, hdynamic]
        simpa using huse
      rw [heq, if_neg huse, Int.add_zero]

theorem PclassInv.remove (hinv : PclassInv env s) (hvv : vv ∈ env.vg.vertices)
    {type : String} {tr : TypeRecord} {pc : Nat → Pclass}
    (h : RemovesNode env vv s s' type tr pc) : PclassInv env s' := by
  have hmaps := h.maps
  obtain ⟨hnodup, hlist, hlisted⟩ := h.lists hinv.lists
  obtain ⟨rfl, hfind⟩ := hinv.recordOf h.assigned h.record
  have hpv : s'.pnode (s.vnode vv).assignment = (s.pnode (s.vnode vv).assignment).leave
      (s.vnode vv).type (env.vg.vnode vv).typecount := by
    rw [h.pnode, Function.update_self]
  have htotal : (s.pnode (s.vnode vv).assignment).totalLoad - (env.vg.vnode vv).typecount =
      ((hosted env s'.vnode (s.vnode vv).assignment).map fun v => (env.vg.vnode v).typecount).sum := by
    rw [hinv.total, ((hmaps.hosted_perm hvv).map _).sum_eq, map_cons, sum_cons]
    omega
  -- a pnode that still has a type has the one it had
  have hcurrent : (s'.pnode (s.vnode vv).assignment).typed = true →
      (s.pnode (s.vnode vv).assignment).totalLoad - (env.vg.vnode vv).typecount ≠ 0 ∧
        (s.pnode (s.vnode vv).assignment).typed = true ∧
        (s'.pnode (s.vnode vv).assignment).currentType = (s.pnode (s.vnode vv).assignment).currentType ∧
        (s'.pnode (s.vnode vv).assignment).currentTypeRecord =
          (s.pnode (s.vnode vv).assignment).currentTypeRecord := by
    rw [hpv]
    unfold PnodeState.leave
    intro ht
    by_cases hzero : (s.pnode (s.vnode vv).assignment).totalLoad - (env.vg.vnode vv).typecount = 0
    · simp [hzero] at ht
    · simp only [hzero, if_false] at ht
      simp [hzero, ht]
  constructor
  case hasType =>
    intro v hv
    by_cases hvv' : v = vv
    · subst hvv'
      rw [hmaps.free] at hv
      cases hv
    · rw [← hmaps.others v hvv'] at hv ⊢
      exact hinv.hasType v hv
  case total =>
    intro p
    by_cases hp : p = (s.vnode vv).assignment
    · subst hp
      rw [← htotal, hpv]
      rfl
    · rw [h.pnode_of_ne hp, ← hmaps.hosted_of_ne hp]
      exact hinv.total p
  case empty =>
    intro p hempty
    by_cases hp : p = (s.vnode vv).assignment
    · subst hp
      rw [hempty, map_nil, sum_nil] at htotal
      rw [hpv]
      unfold PnodeState.leave
      rw [if_pos htotal]
    · rw [← hmaps.hosted_of_ne hp] at hempty
      rw [h.pnode_of_ne hp]
      exact hinv.empty p hempty
  case typed =>
    intro p ht
    by_cases hp : p = (s.vnode vv).assignment
    · subst hp
      obtain ⟨-, hty, hcur, hrec⟩ := hcurrent ht
      rw [hcur, hrec]
      exact hinv.typed _ hty
    · rw [h.pnode_of_ne hp] at ht ⊢
      exact hinv.typed p ht
  case lists =>
    exact hnodup
  case hasList =>
    exact fun c type => (hlist c type).trans (hinv.hasList c type)
  case members =>
    intro c type p hl
    rcases (hlisted c type p).mp hl with hl | ⟨-, hclass, -⟩
    · exact hinv.members c type p hl
    · exact Or.inl hclass
  case own =>
    intro p o ho
    obtain ⟨type, hl⟩ := hinv.own p o ho
    exact ⟨type, (hlisted o type p).mpr (Or.inl hl)⟩
  case untyped =>
    intro p c hclass ht type hhas
    have hhas' := (hlist c type).mp hhas
    refine (hlisted c type p).mpr ?_
    by_cases hp : p = (s.vnode vv).assignment
    · subst hp
      by_cases hzero : (s.pnode (s.vnode vv).assignment).totalLoad - (env.vg.vnode vv).typecount = 0
      · exact Or.inr ⟨rfl, hclass, hhas', Or.inl hzero⟩
      · refine Or.inl (hinv.untyped _ c hclass ?_ type hhas')
        rw [hpv] at ht
        simpa [PnodeState.leave, hzero] using ht
    · rw [h.pnode_of_ne hp] at ht
      exact Or.inl (hinv.untyped p c hclass ht type hhas')
  case static =>
    intro p c hclass type tr' hfind' hstatic
    exact (hlisted c type p).mpr (Or.inl (hinv.static p c hclass type tr' hfind' hstatic))
  case others =>
    intro p c hclass ht type tr' hne hfind' hdynamic hl
    by_cases hp : p = (s.vnode vv).assignment
    · subst hp
      obtain ⟨hzero, hty, hcur, -⟩ := hcurrent ht
      rw [hcur] at hne
      rcases (hlisted c type _).mp hl with hl | ⟨-, -, -, hz | ⟨-, heq⟩⟩
      · exact hinv.others _ c hclass hty type tr' hne hfind' hdynamic hl
      · exact hzero hz
      · exact hne heq
    · rw [h.pnode_of_ne hp] at ht hne
      rcases (hlisted c type p).mp hl with hl | ⟨hp', -⟩
      · exact hinv.others p c hclass ht type tr' hne hfind' hdynamic hl
      · exact hp hp'
  case used =>
    intro c
    have hdynamic : isDynamic env (s.vnode vv).assignment (s.vnode vv).type = !tr.staticType := by
      unfold isDynamic
      rw [hfind]
    rw [h.usedMembers, hinv.used]
    by_cases huse : (env.pg.pnode (s.vnode vv).assignment).myClass = some c ∧ tr.staticType = false
    · have hperm : (dynamicVnodes env s.vnode c).Perm (vv :: dynamicVnodes env s'.vnode c) := by
        refine hmaps.mapped_perm hvv ?_
        rw [hdynamic]
        simp [huse]
      rw [hperm.length_eq, if_pos huse]
      simp
    · have heq : dynamicVnodes env s.vnode c = dynamicVnodes env s'.vnode c := by
        refine hmaps.mapped_eq ?_
        rw [hdynamic]
        simpa using huse
      rw [heq, if_neg huse]
      simp

end

end Emulab.Assign
