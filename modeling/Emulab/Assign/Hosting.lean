import Emulab.Assign.NodeFrames

/-! # What vnodes a pnode hosts

  The assignments of vnodes, the types and loads of pnodes and the members of
  pclasses belong together. `add_node` and `remove_node` change them in a few
  places and leave them alone in all others; what they do to them is said here
  once.
-/

namespace Emulab.Assign

open Outcome Function List Option

variable {R : Type}

/-! ## Section 1: Steps that leave the hosting alone -/

/-- What is hosted where. -/
structure Hosting where
  vnode : VVertex → VnodeState
  pnode : PVertex → PnodeState
  pclass : Nat → Pclass

def State.hosting (s : State R) : Hosting := ⟨s.vnode, s.pnode, s.pclass⟩

/-- A computation that returns a state leaves the hosting alone. -/
def KeepsHosting (s : State R) (x : Except Fault (State R)) : Prop :=
  Yields True x fun s' => s'.hosting = s.hosting

theorem KeepsHosting.bind {s : State R} {x : Except Fault (State R)}
    {f : State R → Except Fault (State R)} (hx : KeepsHosting s x)
    (hf : ∀ s', KeepsHosting s' (f s')) : KeepsHosting s (x >>= f) :=
  Yields.bind hx fun s' hs' => (hf s').imp fun _ h => h.trans hs'

theorem KeepsHosting.ite {s : State R} {c : Prop} [Decidable c] {x y : Except Fault (State R)}
    (hx : KeepsHosting s x) (hy : KeepsHosting s y) : KeepsHosting s (if c then x else y) := by
  split
  · exact hx
  · exact hy

variable {s s' : State R}

theorem KeepsHosting.of_eq {x : Except Fault (State R)} (h : KeepsHosting s' x)
    (hs : s'.hosting = s.hosting) : KeepsHosting s x := h.imp fun _ h => h.trans hs

theorem keepsHosting_ok (h : s'.hosting = s.hosting) : KeepsHosting s (.ok s') := h

theorem keepsHosting_error (s : State R) (e : Fault) : KeepsHosting s (.error e) := trivial

theorem ScoresLink.hosting {ve : VEdge} (h : ScoresLink ve s s') : s'.hosting = s.hosting := by
  unfold State.hosting
  rw [h.vnode, h.pnode, h.pclass]

theorem keepsHosting_of_scores {ve : VEdge} {s : State R} {x : Except Fault (State R)}
    (h : Ends Fault.Unmarked x (ScoresLink ve s)) : KeepsHosting s x := by
  cases x with
  | ok s' => exact ScoresLink.hosting h
  | error e => trivial

section

variable [Double R]

@[simp] theorem hosting_sadd (s : State R) (amount : R) : (s.sadd amount).hosting = s.hosting := rfl

@[simp] theorem hosting_ssub (s : State R) (amount : R) : (s.ssub amount).hosting = s.hosting := rfl

section

variable (env : Env R)

theorem markVlinkAssigned_hosting (ve : VEdge) (s : State R) : KeepsHosting s (markVlinkAssigned env ve s) := by
  unfold markVlinkAssigned
  exact .ite (keepsHosting_ok rfl) (keepsHosting_error s _)

theorem markVlinkUnassigned_hosting (ve : VEdge) (s : State R) :
    KeepsHosting s (markVlinkUnassigned env ve s) := by
  unfold markVlinkUnassigned
  exact .ite (keepsHosting_ok rfl) (keepsHosting_error s _)

theorem resolveTrivial_hosting (ve : VEdge) (ends : LinkEnds) (s : State R) :
    KeepsHosting s (resolveTrivial env ve ends s) := by
  unfold resolveTrivial
  split
  · refine KeepsHosting.bind (.ite ?_ (keepsHosting_ok rfl)) fun s' => ?_
    · exact (markVlinkAssigned_hosting env ve _).of_eq rfl
    · exact keepsHosting_of_scores ((scoreLinkInfo_scores env ve _ _ _ _ s').imp fun _ h => h.1)
  · exact .ite (markVlinkUnassigned_hosting env ve s) (keepsHosting_ok rfl)

theorem resolveNontrivial_hosting (ve : VEdge) (ends : LinkEnds)
    (flipped deterministic : Bool) (random : Nat) (s : State R) :
    KeepsHosting s (resolveNontrivial env ve ends flipped deterministic random s) := by
  unfold resolveNontrivial
  refine Yields.bind (P := fun _ => True) (yields_of_ok trivial fun _ _ => trivial)
    fun infos _ => ?_
  split
  · exact KeepsHosting.ite (markVlinkUnassigned_hosting env ve s) (keepsHosting_ok rfl)
  · have hchoose := chooseResolution_scores env ve ends deterministic random infos s
    refine Yields.bind (P := fun r => r.2.hosting = s.hosting) ?_ fun r hr => ?_
    · cases hr : chooseResolution env ve ends deterministic random infos s with
      | ok r => exact (hchoose.of_ok hr).1.hosting
      | error e => trivial
    · refine KeepsHosting.of_eq (KeepsHosting.bind ?_ fun s' => ?_) hr
      · exact KeepsHosting.of_eq (keepsHosting_of_scores
          ((scoreLinkInfo_scores env ve _ _ _ _ _).imp fun _ h => h.1)) rfl
      · exact .ite (markVlinkAssigned_hosting env ve s') (keepsHosting_ok rfl)

theorem resolveLinksLoop_hosting (vv : VVertex) (pv : PVertex) (deterministic : Bool)
    (random : VEdge → Nat) (ves seen : List VEdge) (s : State R) :
    KeepsHosting s (resolveLinksLoop env vv pv deterministic random ves seen s) := by
  induction ves generalizing seen s with
  | nil => exact keepsHosting_ok rfl
  | cons ve ves ih =>
    unfold resolveLinksLoop
    refine .ite (ih seen s) (KeepsHosting.bind ?_ fun s' => ih _ s')
    unfold resolveLink
    refine .ite (keepsHosting_error s _) (.ite (.ite ?_ ?_) (keepsHosting_ok rfl))
    · exact resolveTrivial_hosting env ve _ s
    · exact resolveNontrivial_hosting env ve _ _ deterministic _ s

theorem removeLink_hosting (vv : VVertex) (pv : PVertex) (ve : VEdge) (s : State R) :
    KeepsHosting s (removeLink env vv pv ve s) := by
  unfold removeLink
  refine .ite (keepsHosting_ok rfl) (KeepsHosting.bind ?_ fun s' => ?_)
  · exact keepsHosting_of_scores (unscoreLinkInfo_scores env ve _ _ _ _ s)
  · exact .ite (markVlinkUnassigned_hosting env ve s') (keepsHosting_ok rfl)

theorem removeLinksLoop_hosting (vv : VVertex) (pv : PVertex) (ves seen : List VEdge) (s : State R) :
    KeepsHosting s (removeLinksLoop env vv pv ves seen s) := by
  induction ves generalizing seen s with
  | nil => exact keepsHosting_ok rfl
  | cons ve ves ih =>
    have hlink := removeLink_hosting env vv pv ve s
    unfold removeLinksLoop
    exact .ite (.ite (ih seen s) (hlink.bind fun s' => ih _ s')) (hlink.bind fun s' => ih _ s')

/-! ## Section 2: Scores, features and vclasses -/

theorem usePtypes_hosting (types : List (String × Int)) (s : State R) :
    (usePtypes env types s).hosting = s.hosting := by
  induction types generalizing s with
  | nil => rfl
  | cons type types ih =>
    unfold usePtypes
    dsimp only [addUsers]
    rw [ih]
    split_ifs <;> rfl

theorem releasePtypes_hosting (types : List (String × Int)) (s : State R) :
    KeepsHosting s (releasePtypes env types s) := by
  induction types generalizing s with
  | nil => exact keepsHosting_ok rfl
  | cons type types ih =>
    unfold releasePtypes removeUsers
    dsimp only
    by_cases husers : 0 ≤ s.ptypeUsers type.1 - type.2
    · rw [if_pos husers]
      refine (ih _).of_eq ?_
      dsimp only
      split_ifs <;> rfl
    · rw [if_neg husers]
      exact keepsHosting_error s _

theorem addPenalties_hosting (n : Nat) (s : State R) : (addPenalties env n s).hosting = s.hosting := by
  induction n generalizing s with
  | zero => rfl
  | succ n ih => exact ih _

theorem removePenalties_hosting (n : Nat) (s : State R) : (removePenalties env n s).hosting = s.hosting := by
  induction n generalizing s with
  | zero => rfl
  | succ n ih => exact ih _

theorem addSubnodes_hosting (n : Nat) (s : State R) : (addSubnodes env n s).hosting = s.hosting := by
  induction n generalizing s with
  | zero => rfl
  | succ n ih => exact ih _

theorem removeSubnodes_hosting (n : Nat) (s : State R) : (removeSubnodes env n s).hosting = s.hosting := by
  induction n generalizing s with
  | zero => rfl
  | succ n ih => exact ih _

theorem scoreStrategies_hosting (old new maxLoad : Int) (s : State R) :
    (scoreStrategies env old new maxLoad s).hosting = s.hosting := by
  unfold scoreStrategies
  dsimp only
  split_ifs <;> rfl

theorem scoreLoad_hosting (vv : VVertex) (pv : PVertex) (type : String)
    (tr : TypeRecord) (s : State R) : (scoreLoad env vv pv type tr s).hosting =
      (addLoad pv type (env.vg.vnode vv).typecount s).hosting := by
  unfold scoreLoad scoreNewPnode scoreOverload
  dsimp only
  rw [scoreStrategies_hosting]
  split_ifs
  · rw [usePtypes_hosting, hosting_sadd, addPenalties_hosting]
  · rw [usePtypes_hosting, hosting_sadd]
  · rw [addPenalties_hosting]
  · rfl

theorem addGlobalUser_hosting (f : NodeFd R) (s : State R) : (addGlobalUser env f s).2.hosting = s.hosting := by
  unfold addGlobalUser
  dsimp only
  split_ifs <;> rfl

theorem removeGlobalUser_hosting (f : NodeFd R) (s : State R) :
    Yields True (removeGlobalUser env f s) fun r => r.2.hosting = s.hosting := by
  unfold removeGlobalUser
  dsimp only
  by_cases huse : 0 ≤ s.inUseGlobally f.fd - 1
  · rw [if_pos huse]
    split_ifs <;> rfl
  · rw [if_neg huse]
    trivial

theorem scoreFdsLoop_hosting (pv : PVertex) (add : Bool) (ms : List (Membership R))
    (sv : ScoreAndViolations R) (s : State R) :
    Yields True (scoreFdsLoop env pv add ms sv s) fun r => r.2.hosting = s.hosting := by
  induction ms generalizing sv s with
  | nil => rfl
  | cons m ms ih =>
    unfold scoreFdsLoop
    refine Yields.bind (P := fun r => r.2.hosting = s.hosting) ?_ fun r hr => ?_
    · unfold scoreFd
      split
      · split_ifs <;> rfl
      · rfl
      · split
        · rfl
        · split
          · split
            · exact addGlobalUser_hosting env _ s
            · exact removeGlobalUser_hosting env _ s
          · rfl
    · exact (ih _ r.2).imp fun _ h => h.trans hr

theorem scoreDesires_hosting (vv : VVertex) (pv : PVertex) (isFixed : Bool)
    (s : State R) : KeepsHosting s (scoreDesires env vv pv isFixed s) := by
  unfold scoreDesires
  refine Yields.bind (scoreFdsLoop_hosting env pv true _ _ s) fun r hr => ?_
  dsimp only
  split_ifs
  · exact hr
  · exact hr

theorem unscoreDesires_hosting (vv : VVertex) (pv : PVertex) (s : State R) :
    KeepsHosting s (unscoreDesires env vv pv s) := by
  unfold unscoreDesires
  exact Yields.bind (scoreFdsLoop_hosting env pv false _ _ s) fun r hr => hr

theorem scoreVclass_hosting (vv : VVertex) (s : State R) : (scoreVclass env vv s).hosting = s.hosting := by
  unfold scoreVclass
  split
  · rfl
  · dsimp only
    split_ifs <;> rfl

theorem unscoreVclass_hosting (vv : VVertex) (s : State R) : (unscoreVclass env vv s).hosting = s.hosting := by
  unfold unscoreVclass
  split
  · rfl
  · dsimp only
    split_ifs <;> rfl

end

end

/-! ## Section 3: Pclasses -/

/-- What `pclass_set` does to the pclasses. -/
structure SetsPclass (env : Env R) (pv : PVertex) (c : Nat) (p : PnodeState)
    (pc pc' : Nat → Pclass) : Prop where
  used : ∀ c', (pc' c').usedMembers = (pc c').usedMembers + if c' = c then 1 else 0
  disabled : ∀ c', (pc' c').disabled =
    if (env.pg.pnode pv).myOwnClass = some c' ∧ ∃ m ∈ (pc c).members, m.1 = p.currentType then false
    else (pc c').disabled
  others : ∀ c', c' ≠ c → (pc' c').members = (pc c').members
  keys : (pc' c).members.map Prod.fst = (pc c).members.map Prod.fst
  lists : ∀ m ∈ (pc c).members, ∃ m' ∈ (pc' c).members, pclassSetMember env pv p m = .ok m'
  lists_of : ∀ m' ∈ (pc' c).members, ∃ m ∈ (pc c).members, pclassSetMember env pv p m = .ok m'

/-- What `pclass_unset` does to the pclasses. -/
structure UnsetsPclass (env : Env R) (pv : PVertex) (c : Nat) (p : PnodeState)
    (pc pc' : Nat → Pclass) : Prop where
  used : ∀ c', (pc' c').usedMembers = (pc c').usedMembers - if c' = c then 1 else 0
  disabled : ∀ c', (pc' c').disabled =
    if (env.pg.pnode pv).myOwnClass = some c' ∧ p.totalLoad = 1 then true else (pc c').disabled
  others : ∀ c', c' ≠ c → (pc' c').members = (pc c').members
  keys : (pc' c).members.map Prod.fst = (pc c).members.map Prod.fst
  lists : ∀ m ∈ (pc c).members, ∃ m' ∈ (pc' c).members, pclassUnsetMember pv p m = .ok m'
  lists_of : ∀ m' ∈ (pc' c).members, ∃ m ∈ (pc c).members, pclassUnsetMember pv p m = .ok m'

variable {pv : PVertex}

theorem pclassSetMember_key {env : Env R} {p : PnodeState}
    {m m' : String × List PVertex} (h : pclassSetMember env pv p m = .ok m') : m'.1 = m.1 := by
  unfold pclassSetMember at h
  split at h
  · split at h
    · cases h
    · split at h <;> cases h <;> rfl
  · split at h
    · cases h
    · obtain rfl := Except.ok.inj h
      split <;> rfl

theorem pclassUnsetMember_key {p : PnodeState} {m m' : String × List PVertex}
    (h : pclassUnsetMember pv p m = .ok m') : m'.1 = m.1 := by
  unfold pclassUnsetMember at h
  split at h
  · split at h
    · cases h
    · split at h
      · split at h <;> cases h <;> rfl
      · cases h
  · cases h
    rfl

theorem mapM_members {f : String × List PVertex → Except Fault (String × List PVertex)}
    (hkey : ∀ m m', f m = .ok m' → m'.1 = m.1) {l ys : List (String × List PVertex)}
    (h : l.mapM f = .ok ys) : ys.map Prod.fst = l.map Prod.fst ∧
      (∀ m ∈ l, ∃ m' ∈ ys, f m = .ok m') ∧ ∀ m' ∈ ys, ∃ m ∈ l, f m = .ok m' := by
  refine ⟨?_, ?_⟩
  · induction l generalizing ys with
    | nil =>
      obtain rfl := Except.ok.inj h
      rfl
    | cons m l ih =>
      rw [mapM_cons] at h
      cases hm : f m with
      | error e =>
        rw [hm] at h
        cases h
      | ok m' =>
        cases hl : l.mapM f with
        | error e =>
          rw [hm, hl] at h
          cases h
        | ok ms =>
          rw [hm, hl] at h
          obtain rfl := Except.ok.inj h
          rw [map_cons, map_cons, hkey m m' hm, ih hl]
  · rcases mapM_cases f l with ⟨ys', hys, -, hto, hfrom⟩ | ⟨x, -, e, -, hfail⟩
    · rw [h] at hys
      obtain rfl := Except.ok.inj hys
      exact ⟨hto, hfrom⟩
    · rw [h] at hfail
      cases hfail

section

variable (env : Env R) (pv : PVertex) (disabled : Bool) (q : Prop) [Decidable q] (s : State R)

theorem setOwnDisabled_pclass (c : Nat) : (if q then setOwnDisabled env pv disabled s else s).pclass c =
      { s.pclass c with disabled :=
          if (env.pg.pnode pv).myOwnClass = some c ∧ q then disabled
          else (s.pclass c).disabled } := by
  by_cases hq : q
  · rw [if_pos hq]
    unfold setOwnDisabled State.setPclass
    cases hown : (env.pg.pnode pv).myOwnClass with
    | none => simp
    | some own =>
      by_cases hc : c = own
      · subst hc
        simp [hq]
      · simp [hc, Ne.symm hc]
  · rw [if_neg hq]
    simp [hq]

theorem setOwnDisabled_nodes : (if q then setOwnDisabled env pv disabled s else s).vnode = s.vnode ∧
      (if q then setOwnDisabled env pv disabled s else s).pnode = s.pnode := by
  unfold setOwnDisabled
  split
  · split <;> exact ⟨rfl, rfl⟩
  · exact ⟨rfl, rfl⟩

end

theorem pclassSet_sets (env : Env R) (pv : PVertex) (c : Nat) (s : State R) :
    Yields True (pclassSet env pv c s) fun s' => s'.vnode = s.vnode ∧ s'.pnode = s.pnode ∧
      SetsPclass env pv c (s.pnode pv) s.pclass s'.pclass := by
  unfold pclassSet
  refine Yields.bind (P := fun members =>
    (s.pclass c).members.mapM (pclassSetMember env pv (s.pnode pv)) = .ok members)
    (yields_of_ok trivial fun _ h => h) fun members hmembers => ?_
  obtain ⟨hkeys, hto, hfrom⟩ := mapM_members (fun _ _ => pclassSetMember_key) hmembers
  obtain ⟨hvnode, hpnode⟩ := setOwnDisabled_nodes env pv false
    ((s.pclass c).members.any (·.1 = (s.pnode pv).currentType) = true) s
  have hown := setOwnDisabled_pclass env pv false
    ((s.pclass c).members.any (·.1 = (s.pnode pv).currentType) = true) s
  have hany : (s.pclass c).members.any (·.1 = (s.pnode pv).currentType) = true ↔
      ∃ m ∈ (s.pclass c).members, m.1 = (s.pnode pv).currentType := by simp
  refine ⟨hvnode, hpnode, ?_⟩
  constructor
  · intro c'
    by_cases hc : c' = c
    · subst hc
      simp [State.setPclass, hown]
    · simp [State.setPclass, hc, hown]
  · intro c'
    by_cases hc : c' = c
    · subst hc
      simp only [State.setPclass, update_self, hown]
      simp only [hany]
    · simp only [State.setPclass, update_of_ne hc, hown]
      simp only [hany]
  · intro c' hc
    simp [State.setPclass, hc, hown]
  · simpa [State.setPclass] using hkeys
  · simpa [State.setPclass] using hto
  · simpa [State.setPclass] using hfrom

theorem pclassUnset_unsets (env : Env R) (pv : PVertex) (c : Nat) (s : State R) :
    Yields True (pclassUnset env pv c s) fun s' => s'.vnode = s.vnode ∧ s'.pnode = s.pnode ∧
      UnsetsPclass env pv c (s.pnode pv) s.pclass s'.pclass := by
  unfold pclassUnset
  refine Yields.bind (P := fun members =>
    (s.pclass c).members.mapM (pclassUnsetMember pv (s.pnode pv)) = .ok members)
    (yields_of_ok trivial fun _ h => h) fun members hmembers => ?_
  obtain ⟨hkeys, hto, hfrom⟩ := mapM_members (fun _ _ => pclassUnsetMember_key) hmembers
  obtain ⟨hvnode, hpnode⟩ := setOwnDisabled_nodes env pv true ((s.pnode pv).totalLoad = 1) s
  have hown := setOwnDisabled_pclass env pv true ((s.pnode pv).totalLoad = 1) s
  refine ⟨hvnode, hpnode, ?_⟩
  constructor
  · intro c'
    by_cases hc : c' = c
    · subst hc
      simp [State.setPclass, hown]
    · simp [State.setPclass, hc, hown]
  · intro c'
    by_cases hc : c' = c
    · subst hc
      simp [State.setPclass, hown]
    · simp [State.setPclass, hc, hown]
  · intro c' hc
    simp [State.setPclass, hc, hown]
  · simpa [State.setPclass] using hkeys
  · simpa [State.setPclass] using hto
  · simpa [State.setPclass] using hfrom

/-! ## Section 4: Adding a node -/

/-- A pnode takes on a vnode. -/
def PnodeState.host (p : PnodeState) (static : Bool) (type : String) (n : Int) : PnodeState where
  typed := p.typed || !static
  currentType := if p.typed || static then p.currentType else type
  currentTypeRecord := if p.typed || static then p.currentTypeRecord else some type
  load := update p.load type (p.load type + n)
  totalLoad := p.totalLoad + n

/-- What `add_node` does when it maps a vnode. -/
structure AddsNode (env : Env R) (vv : VVertex) (pv : PVertex) (s s' : State R) (tr : TypeRecord) :
    Prop where
  free : (s.vnode vv).assigned = false
  record : (env.pg.pnode pv).findType (s.vnode vv).type = some tr
  room : tr.staticType = true → (s.pnode pv).load (s.vnode vv).type < tr.maxLoad
  type : tr.staticType = false → (s.pnode pv).typed = true → (s.pnode pv).currentType = (s.vnode vv).type
  vnode : s'.vnode = update s.vnode vv { s.vnode vv with assignment := pv, assigned := true }
  pnode : s'.pnode = update s.pnode pv
    ((s.pnode pv).host tr.staticType (s.vnode vv).type (env.vg.vnode vv).typecount)
  same : tr.staticType = true ∨ (env.pg.pnode pv).myClass = none → s'.pclass = s.pclass
  sets : tr.staticType = false → ∀ c, (env.pg.pnode pv).myClass = some c →
    SetsPclass env pv c (s'.pnode pv) s.pclass s'.pclass

/-- The pnode has been given a type if it needs one. -/
structure TakesType (env : Env R) (vv : VVertex) (pv : PVertex) (s s' : State R) (tr : TypeRecord) :
    Prop where
  record : (env.pg.pnode pv).findType (s.vnode vv).type = some tr
  room : tr.staticType = true → (s.pnode pv).load (s.vnode vv).type < tr.maxLoad
  type : tr.staticType = false → (s.pnode pv).typed = true → (s.pnode pv).currentType = (s.vnode vv).type
  vnode : s'.vnode = s.vnode
  pclass : s'.pclass = s.pclass
  pnode : (addLoad pv (s.vnode vv).type (env.vg.vnode vv).typecount s').pnode = update s.pnode pv
      ((s.pnode pv).host tr.staticType (s.vnode vv).type (env.vg.vnode vv).typecount)

variable {vv : VVertex}

theorem takeType_takes {env : Env R}
    {tr : TypeRecord} (h : takeType env vv pv s = some (tr, s')) : TakesType env vv pv s s' tr := by
  unfold takeType at h
  dsimp only at h
  cases hrecord : (env.pg.pnode pv).findType (s.vnode vv).type with
  | none =>
    rw [hrecord] at h
    cases h
  | some record =>
    rw [hrecord] at h
    dsimp only at h
    by_cases hstatic : record.staticType = true
    · rw [if_pos hstatic] at h
      split_ifs at h with hroom
      obtain ⟨rfl, rfl⟩ := Prod.mk.inj (some.inj h)
      refine ⟨hrecord, fun _ => hroom, fun hdynamic => ?_, rfl, rfl, ?_⟩
      · rw [hstatic] at hdynamic
        cases hdynamic
      · simp [addLoad, State.setPnode, PnodeState.host, hstatic]
    · rw [if_neg hstatic] at h
      rw [Bool.not_eq_true] at hstatic
      split_ifs at h with htyped hsame
      · obtain ⟨rfl, rfl⟩ := Prod.mk.inj (some.inj h)
        simp only [Bool.not_eq_eq_eq_not, Bool.not_true] at htyped
        refine ⟨hrecord, fun hs => ?_, fun _ ht => ?_, rfl, rfl, ?_⟩
        · rw [hstatic] at hs
          cases hs
        · rw [htyped] at ht
          cases ht
        · simp [addLoad, setCurrentType, State.setPnode, PnodeState.host, hstatic, htyped]
      · obtain ⟨rfl, rfl⟩ := Prod.mk.inj (some.inj h)
        simp only [Bool.not_eq_eq_eq_not, Bool.not_true, Bool.not_eq_false] at htyped
        refine ⟨hrecord, fun hs => ?_, fun _ _ => not_not.mp hsame, rfl, rfl, ?_⟩
        · rw [hstatic] at hs
          cases hs
        · simp [addLoad, State.setPnode, PnodeState.host, hstatic, htyped]

section

variable [Double R]

omit [Double R] in
theorem State.hosting_inj {s s' : State R} (h : s'.hosting = s.hosting) :
    s'.vnode = s.vnode ∧ s'.pnode = s.pnode ∧ s'.pclass = s.pclass := by
  unfold State.hosting at h
  rw [Hosting.mk.injEq] at h
  exact h

omit [Double R] in
theorem usePclass_sets (env : Env R) (pv : PVertex) (tr : TypeRecord) (s : State R) :
    Yields True (usePclass env pv tr s) fun s' => s'.vnode = s.vnode ∧ s'.pnode = s.pnode ∧
      (tr.staticType = true ∨ (env.pg.pnode pv).myClass = none → s'.pclass = s.pclass) ∧
      (tr.staticType = false → ∀ c, (env.pg.pnode pv).myClass = some c →
        SetsPclass env pv c (s.pnode pv) s.pclass s'.pclass) := by
  unfold usePclass
  cases hclass : (env.pg.pnode pv).myClass with
  | none => exact ⟨rfl, rfl, fun _ => rfl, fun _ c hc => nomatch hc⟩
  | some c =>
    dsimp only
    cases hstatic : tr.staticType with
    | true => exact ⟨rfl, rfl, fun _ => rfl, fun h => nomatch h⟩
    | false =>
      refine (pclassSet_sets env pv c s).imp fun s' ⟨hvnode, hpnode, hsets⟩ => ?_
      refine ⟨hvnode, hpnode, fun h => ?_, fun _ c' hc' => ?_⟩
      · rcases h with h | h <;> cases h
      · obtain rfl := some.inj hc'
        exact hsets

/-- The mapping of a vnode: the type is taken first, the load is added then, and the pclass is told last. -/
theorem addTyped_adds (env : Env R) (vv : VVertex) (pv : PVertex)
    (deterministic isFixed skipLinks : Bool) (random : VEdge → Nat) {tr : TypeRecord}
    {s₀ s : State R} (hfree : (s₀.vnode vv).assigned = false) (h : TakesType env vv pv s₀ s tr) :
    Yields True (addTyped env vv pv deterministic isFixed skipLinks random tr s) fun s' =>
      AddsNode env vv pv s₀ s' tr := by
  unfold addTyped
  dsimp only
  obtain ⟨hvnode₁, hpnode₁, hpclass₁⟩ :=
    State.hosting_inj (addSubnodes_hosting env (subnodeViolations env vv pv s) s)
  have hlinks : KeepsHosting ((addSubnodes env (subnodeViolations env vv pv s) s).setVnode vv
      fun v => { v with assignment := pv, assigned := true })
      (if skipLinks then .ok ((addSubnodes env (subnodeViolations env vv pv s) s).setVnode vv
        fun v => { v with assignment := pv, assigned := true })
      else resolveLinks env vv pv deterministic random
        ((addSubnodes env (subnodeViolations env vv pv s) s).setVnode vv
          fun v => { v with assignment := pv, assigned := true })) :=
    .ite (keepsHosting_ok rfl) (resolveLinksLoop_hosting env vv pv deterministic random _ _ _)
  refine Yields.bind hlinks fun s₂ h₂ => ?_
  obtain ⟨hvnode₂, hpnode₂, hpclass₂⟩ := State.hosting_inj h₂
  obtain ⟨hvnode₃, hpnode₃, hpclass₃⟩ :=
    State.hosting_inj (scoreLoad_hosting env vv pv (s.vnode vv).type tr s₂)
  refine Yields.bind (scoreDesires_hosting env vv pv isFixed _) fun s₄ h₄ => ?_
  obtain ⟨hvnode₄, hpnode₄, hpclass₄⟩ := State.hosting_inj h₄
  have hlast : (scoreVclass env vv (if pclassUnused env pv tr s₄ then s₄.sadd env.score.pclass
      else s₄)).hosting = s₄.hosting := by
    rw [scoreVclass_hosting]
    split <;> rfl
  obtain ⟨hvnode₅, hpnode₅, hpclass₅⟩ := State.hosting_inj hlast
  refine (usePclass_sets env pv tr _).imp fun s' ⟨hvnode₆, hpnode₆, hsame, hsets⟩ => ?_
  rw [hpclass₅, hpclass₄] at hsame hsets
  rw [hpnode₅, hpnode₄] at hpnode₆ hsets
  rw [hvnode₅, hvnode₄] at hvnode₆
  -- no step in between changes a pnode
  have hbefore : s₂.pnode = s.pnode := hpnode₂.trans hpnode₁
  have hload : (scoreAssigned env (scoreLoad env vv pv (s.vnode vv).type tr s₂)).pnode = update s₀.pnode pv
        ((s₀.pnode pv).host tr.staticType (s₀.vnode vv).type (env.vg.vnode vv).typecount) := by
    rw [← h.pnode, ← h.vnode]
    refine hpnode₃.trans ?_
    unfold addLoad State.setPnode
    dsimp only
    rw [hbefore]
  have hpclass : (scoreAssigned env (scoreLoad env vv pv (s.vnode vv).type tr s₂)).pclass =
      s₀.pclass := hpclass₃.trans (hpclass₂.trans (hpclass₁.trans h.pclass))
  have hvnode : (scoreAssigned env (scoreLoad env vv pv (s.vnode vv).type tr s₂)).vnode =
      update s₀.vnode vv { s₀.vnode vv with assignment := pv, assigned := true } := by
    refine hvnode₃.trans (hvnode₂.trans ?_)
    unfold State.setVnode
    dsimp only
    rw [hvnode₁, h.vnode]
  rw [hpclass] at hsame hsets
  exact {
    free := hfree
    record := h.record
    room := h.room
    type := h.type
    vnode := hvnode₆.trans hvnode
    pnode := hpnode₆.trans hload
    same := hsame
    sets := fun hs c hc => by
      rw [hpnode₆]
      exact hsets hs c hc }

/-- Either the vnode is mapped, or nothing is changed. -/
theorem addNode_adds (env : Env R) (vv : VVertex) (pv : PVertex)
    (deterministic isFixed skipLinks : Bool) (random : VEdge → Nat) (s : State R) :
    Yields True (addNode env vv pv deterministic isFixed skipLinks random s) fun r =>
      r.1 = 1 ∧ r.2 = s ∧ takeType env vv pv s = none ∨ r.1 = 0 ∧ ∃ tr, AddsNode env vv pv s r.2 tr := by
  unfold addNode
  split
  · rename_i hfree
    simp only [Bool.not_eq_eq_eq_not, Bool.not_true] at hfree
    cases htake : takeType env vv pv s with
    | none => exact Or.inl ⟨rfl, rfl, rfl⟩
    | some r =>
      have htakes := takeType_takes htake
      exact Yields.bind (addTyped_adds env vv pv deterministic isFixed skipLinks random hfree
        htakes) fun s' h => Or.inr ⟨rfl, r.1, h⟩
  · trivial

end

/-! ## Section 5: Removing a node -/

/-- A pnode gives up a vnode. If it is free then it has no type any more. -/
def PnodeState.leave (p : PnodeState) (type : String) (n : Int) : PnodeState where
  typed := if p.totalLoad - n = 0 then false else p.typed
  currentType := if p.totalLoad - n = 0 then "" else p.currentType
  currentTypeRecord := if p.totalLoad - n = 0 then none else p.currentTypeRecord
  load := update p.load type (p.load type + -n)
  totalLoad := p.totalLoad + -n

/-- What `pclass_reset_maps` does to the pclasses. -/
def resetMaps (pv : PVertex) (c : Nat) (pc : Nat → Pclass) : Nat → Pclass :=
  update pc c { pc c with
    members := (pc c).members.map fun m => if pv ∈ m.2 then m else (m.1, pv :: m.2) }

/-- What `remove_node` does. In between the pclasses are as `pclass_unset` leaves them. -/
structure RemovesNode (env : Env R) (vv : VVertex) (s s' : State R) (type : String)
    (tr : TypeRecord) (pc : Nat → Pclass) : Prop where
  assigned : (s.vnode vv).assigned = true
  record : recordOf env vv (s.vnode vv).assignment s = .ok (type, tr)
  vnode : s'.vnode = update s.vnode vv { s.vnode vv with assigned := false }
  pnode : s'.pnode = update s.pnode (s.vnode vv).assignment
    ((s.pnode (s.vnode vv).assignment).leave type (env.vg.vnode vv).typecount)
  same : tr.staticType = true ∨ (env.pg.pnode (s.vnode vv).assignment).myClass = none → pc = s.pclass
  unsets : tr.staticType = false → ∀ c, (env.pg.pnode (s.vnode vv).assignment).myClass = some c →
    UnsetsPclass env (s.vnode vv).assignment c (s.pnode (s.vnode vv).assignment) s.pclass pc
  stays : (s.pnode (s.vnode vv).assignment).totalLoad - (env.vg.vnode vv).typecount ≠ 0 → s'.pclass = pc
  resets : (s.pnode (s.vnode vv).assignment).totalLoad - (env.vg.vnode vv).typecount = 0 →
    ∃ c, (env.pg.pnode (s.vnode vv).assignment).myClass = some c ∧
      s'.pclass = resetMaps (s.vnode vv).assignment c pc

theorem releasePclass_unsets (env : Env R) (pv : PVertex) (tr : TypeRecord) (s : State R) :
    Yields True (releasePclass env pv tr s) fun s' => s'.vnode = s.vnode ∧ s'.pnode = s.pnode ∧
      (tr.staticType = true ∨ (env.pg.pnode pv).myClass = none → s'.pclass = s.pclass) ∧
      (tr.staticType = false → ∀ c, (env.pg.pnode pv).myClass = some c →
        UnsetsPclass env pv c (s.pnode pv) s.pclass s'.pclass) := by
  unfold releasePclass
  cases hclass : (env.pg.pnode pv).myClass with
  | none => exact ⟨rfl, rfl, fun _ => rfl, fun _ c hc => nomatch hc⟩
  | some c =>
    dsimp only
    cases hstatic : tr.staticType with
    | true => exact ⟨rfl, rfl, fun _ => rfl, fun h => nomatch h⟩
    | false =>
      refine (pclassUnset_unsets env pv c s).imp fun s' ⟨hvnode, hpnode, hunsets⟩ => ?_
      refine ⟨hvnode, hpnode, fun h => ?_, fun _ c' hc' => ?_⟩
      · rcases h with h | h <;> cases h
      · obtain rfl := some.inj hc'
        exact hunsets

section

variable [Double R]

/-- The loads in `remove_node`, and what follows if the pnode is free. -/
theorem unscoreLoad_leaves (env : Env R) (vv : VVertex) (pv : PVertex) (type : String)
    (tr : TypeRecord) (s : State R) :
    Yields True (unscoreLoad env vv pv type tr s) fun s' => s'.vnode = s.vnode ∧ s'.pnode = update s.pnode pv
        ((s.pnode pv).leave type (env.vg.vnode vv).typecount) ∧
      ((s.pnode pv).totalLoad - (env.vg.vnode vv).typecount ≠ 0 → s'.pclass = s.pclass) ∧
      ((s.pnode pv).totalLoad - (env.vg.vnode vv).typecount = 0 →
        ∃ c, (env.pg.pnode pv).myClass = some c ∧ s'.pclass = resetMaps pv c s.pclass) := by
  unfold unscoreLoad
  dsimp only
  obtain ⟨hvnode, hpnode, hpclass⟩ := State.hosting_inj (scoreStrategies_hosting env
    ((s.pnode pv).load type - (env.vg.vnode vv).typecount + 1)
    ((s.pnode pv).load type - (env.vg.vnode vv).typecount) tr.maxLoad
    (addLoad pv type (-(env.vg.vnode vv).typecount) s))
  by_cases hfree : (s.pnode pv).totalLoad - (env.vg.vnode vv).typecount = 0
  · rw [if_pos hfree]
    unfold releasePnode pclassResetMaps
    cases hclass : (env.pg.pnode pv).myClass with
    | none => trivial
    | some c =>
      dsimp only
      refine (releasePtypes_hosting env _ _).imp fun s' h => ?_
      obtain ⟨hvnode', hpnode', hpclass'⟩ := State.hosting_inj h
      refine ⟨hvnode'.trans hvnode, ?_, fun hne => absurd hfree hne, fun _ => ⟨c, rfl, ?_⟩⟩
      · refine hpnode'.trans ?_
        unfold removeCurrentType State.setPnode State.setPclass State.ssub
        dsimp only
        rw [hpnode]
        simp [addLoad, State.setPnode, PnodeState.leave, hfree]
      · refine hpclass'.trans ?_
        unfold removeCurrentType State.setPnode State.setPclass State.ssub
        dsimp only
        rw [hpclass]
        rfl
  · rw [if_neg hfree]
    have hleave : (addLoad pv type (-(env.vg.vnode vv).typecount) s).pnode =
        update s.pnode pv ((s.pnode pv).leave type (env.vg.vnode vv).typecount) := by
      simp [addLoad, State.setPnode, PnodeState.leave, hfree]
    split
    · obtain ⟨hvnode', hpnode', hpclass'⟩ := State.hosting_inj (removePenalties_hosting env
        ((s.pnode pv).load type - max ((s.pnode pv).load type - (env.vg.vnode vv).typecount) tr.maxLoad).toNat
        (scoreStrategies env ((s.pnode pv).load type - (env.vg.vnode vv).typecount + 1)
          ((s.pnode pv).load type - (env.vg.vnode vv).typecount) tr.maxLoad
          (addLoad pv type (-(env.vg.vnode vv).typecount) s)))
      exact ⟨hvnode'.trans hvnode, hpnode'.trans (hpnode.trans hleave),
        fun _ => hpclass'.trans hpclass, fun h => absurd h hfree⟩
    · exact ⟨hvnode, hpnode.trans hleave, fun _ => hpclass, fun h => absurd h hfree⟩

theorem removeNode_removes (env : Env R) (vv : VVertex) (s : State R) :
    Yields True (removeNode env vv s) fun s' => ∃ type tr pc, RemovesNode env vv s s' type tr pc := by
  unfold removeNode
  split
  · rename_i hassigned
    refine Yields.bind (P := fun r => recordOf env vv (s.vnode vv).assignment s = .ok r)
      (yields_of_ok trivial fun _ h => h) ?_
    intro ⟨type, tr⟩ hrecord
    dsimp only
    refine Yields.bind (releasePclass_unsets env _ tr s) fun s₁ ⟨hvnode₁, hpnode₁, hsame, hunsets⟩ => ?_
    refine Yields.bind (removeLinksLoop_hosting env vv _ _ _ _) fun s₂ h₂ => ?_
    have hscores : s₂.hosting = s₁.hosting := by
      refine h₂.trans ?_
      rw [removeSubnodes_hosting, unscoreVclass_hosting]
      split <;> rfl
    obtain ⟨hvnode₂, hpnode₂, hpclass₂⟩ := State.hosting_inj hscores
    refine Yields.bind (unscoreLoad_leaves env vv _ type tr s₂)
      fun s₃ ⟨hvnode₃, hpnode₃, hstays, hresets⟩ => ?_
    refine (unscoreDesires_hosting env vv _ _).imp fun s' h => ?_
    obtain ⟨hvnode, hpnode, hpclass⟩ := State.hosting_inj h
    rw [hpnode₂.trans hpnode₁] at hpnode₃ hstays hresets
    rw [hpclass₂] at hstays hresets
    refine ⟨type, tr, s₁.pclass, hassigned, hrecord, ?_, hpnode.trans hpnode₃, hsame, hunsets,
      fun hne => hpclass.trans (hstays hne), fun hzero => ?_⟩
    · refine hvnode.trans ?_
      unfold scoreUnassigned State.setVnode
      dsimp only [State.sadd]
      rw [hvnode₃.trans (hvnode₂.trans hvnode₁)]
    · obtain ⟨c, hc, hreset⟩ := hresets hzero
      exact ⟨c, hc, hpclass.trans hreset⟩
  · trivial

end

/-! ## Section 6: The vnodes that are mapped -/

/-- The vnodes that are assigned in a certain way. -/
def mappedVnodes (env : Env R) (vn : VVertex → VnodeState) (p : VnodeState → Bool) :
    List VVertex := env.vg.vertices.filter fun v => (vn v).assigned && p (vn v)

def hosted (env : Env R) (vn : VVertex → VnodeState) (pv : PVertex) : List VVertex :=
  mappedVnodes env vn fun n => n.assignment = pv

/-- The vnode `vv` is mapped to `pv`, and no other one is changed. -/
structure Maps (vv : VVertex) (pv : PVertex) (vn vn' : VVertex → VnodeState) : Prop where
  free : (vn vv).assigned = false
  assigned : (vn' vv).assigned = true
  assignment : (vn' vv).assignment = pv
  others : ∀ v, v ≠ vv → vn' v = vn v

theorem filter_perm_cons {α : Type} [DecidableEq α] {l : List α} (hl : l.Nodup) {a : α}
    (ha : a ∈ l) {p q : α → Bool} (hpq : ∀ x, x ≠ a → p x = q x) (hp : p a = true)
    (hq : q a = false) : (l.filter p).Perm (a :: l.filter q) := by
  have herase : (l.erase a).filter p = (l.erase a).filter q := by
    refine filter_congr fun x hx => ?_
    have hne : x ≠ a := fun h => (hl.mem_erase_iff.mp hx).1 h
    exact hpq x hne
  have hcons : (a :: l.erase a).filter p = a :: (a :: l.erase a).filter q := by
    rw [filter_cons_of_pos hp, filter_cons_of_neg (by simp [hq]), herase]
  have hperm := perm_cons_erase ha
  refine (hperm.filter p).trans ?_
  rw [hcons]
  exact (hperm.filter q).symm.cons a

section

variable {env : Env R} {vv : VVertex} {pv : PVertex} {vn vn' : VVertex → VnodeState} {p : VnodeState → Bool}

theorem Maps.mapped_perm (h : Maps vv pv vn vn') (hvv : vv ∈ env.vg.vertices) (hp : p (vn' vv) = true) :
    (mappedVnodes env vn' p).Perm (vv :: mappedVnodes env vn p) := by
  refine filter_perm_cons env.vg.vertices_nodup hvv (fun v hv => ?_) ?_ ?_
  · rw [h.others v hv]
  · simp [h.assigned, hp]
  · simp [h.free]

theorem Maps.mapped_eq (h : Maps vv pv vn vn') (hp : p (vn' vv) = false) :
    mappedVnodes env vn' p = mappedVnodes env vn p := by
  refine filter_congr fun v _ => ?_
  by_cases hv : v = vv
  · subst hv
    simp [h.free, hp]
  · rw [h.others v hv]

theorem Maps.hosted_perm (h : Maps vv pv vn vn') (hvv : vv ∈ env.vg.vertices) :
    (hosted env vn' pv).Perm (vv :: hosted env vn pv) :=
  h.mapped_perm hvv (by simp [h.assignment])

theorem Maps.hosted_of_ne (h : Maps vv pv vn vn') {q : PVertex} (hq : q ≠ pv) :
    hosted env vn' q = hosted env vn q :=
  h.mapped_eq (by simp [h.assignment, Ne.symm hq])

end

theorem AddsNode.maps {env : Env R} {tr : TypeRecord}
    (h : AddsNode env vv pv s s' tr) : Maps vv pv s.vnode s'.vnode := by
  rw [h.vnode]
  refine ⟨h.free, ?_, ?_, fun v hv => update_of_ne hv _ _⟩ <;> simp

theorem AddsNode.vnode_type {env : Env R} {tr : TypeRecord} (h : AddsNode env vv pv s s' tr) :
    (s'.vnode vv).type = (s.vnode vv).type := by
  rw [h.vnode, update_self]

theorem RemovesNode.maps {env : Env R} {type : String}
    {tr : TypeRecord} {pc : Nat → Pclass} (h : RemovesNode env vv s s' type tr pc) :
    Maps vv (s.vnode vv).assignment s'.vnode s.vnode := by
  rw [h.vnode]
  exact ⟨by simp, h.assigned, rfl, fun v hv => (update_of_ne hv _ _).symm⟩

/-- The annealer chooses a type for a vnode of a vclass before it maps it. -/
def State.chooseType (vv : VVertex) (type : Option String) (s : State R) : State R :=
  match type with
  | none => s
  | some type => s.setVnode vv fun v => { v with type := type }

section

variable (vv : VVertex) (type : Option String) (s : State R)

@[simp] theorem chooseType_pnode : (s.chooseType vv type).pnode = s.pnode := by cases type <;> rfl

@[simp] theorem chooseType_pclass : (s.chooseType vv type).pclass = s.pclass := by
  cases type <;> rfl

theorem chooseType_of_ne {v : VVertex} (hv : v ≠ vv) : (s.chooseType vv type).vnode v = s.vnode v := by
  cases type with
  | none => rfl
  | some type => exact update_of_ne hv _ _

@[simp] theorem chooseType_assigned (v : VVertex) :
    ((s.chooseType vv type).vnode v).assigned = (s.vnode v).assigned := by
  by_cases hv : v = vv
  · cases type with
    | none => rfl
    | some type => simp [State.chooseType, State.setVnode, hv]
  · rw [chooseType_of_ne vv type s hv]

@[simp] theorem chooseType_assignment (v : VVertex) :
    ((s.chooseType vv type).vnode v).assignment = (s.vnode v).assignment := by
  by_cases hv : v = vv
  · cases type with
    | none => rfl
    | some type => simp [State.chooseType, State.setVnode, hv]
  · rw [chooseType_of_ne vv type s hv]

end

/-- The type of a vnode that is not assigned does not matter. -/
theorem mappedVnodes_chooseType (env : Env R) {s : State R}
    (hfree : (s.vnode vv).assigned = false) (type : Option String) (p : VnodeState → Bool) :
    mappedVnodes env (s.chooseType vv type).vnode p = mappedVnodes env s.vnode p := by
  refine filter_congr fun v _ => ?_
  by_cases hv : v = vv
  · subst hv
    rw [chooseType_assigned, hfree]
    rfl
  · rw [chooseType_of_ne vv type s hv]

theorem initScore_hosting [Double R] (env : Env R) :
    (initScore env (State.parsed env)).pnode = (State.parsed env).pnode ∧
      (initScore env (State.parsed env)).pclass = env.pclass ∧
      ∀ v, ((initScore env (State.parsed env)).vnode v).assigned = false := by
  unfold initScore
  dsimp only
  refine List.foldlRecOn env.pg.edges _ (motive := fun s : State R =>
    s.pnode = (State.parsed env).pnode ∧ s.pclass = env.pclass ∧
      ∀ v, (s.vnode v).assigned = false) ?_ fun s hs e _ => hs
  refine List.foldlRecOn env.vg.edges _ (motive := fun s : State R =>
    s.pnode = (State.parsed env).pnode ∧ s.pclass = env.pclass ∧
      ∀ v, (s.vnode v).assigned = false) ?_ fun s hs e _ => hs
  refine List.foldlRecOn env.vg.vertices _ (motive := fun s : State R =>
    s.pnode = (State.parsed env).pnode ∧ s.pclass = env.pclass ∧
      ∀ v, (s.vnode v).assigned = false) ⟨rfl, rfl, fun _ => rfl⟩ fun s hs v _ => ?_
  refine ⟨hs.1, hs.2.1, fun w => ?_⟩
  by_cases hw : w = v
  · subst hw
    simp [initVnode, State.setVnode, State.sadd]
  · simpa [initVnode, State.setVnode, State.sadd, hw] using hs.2.2 w

end Emulab.Assign
