import Emulab.Assign.Anneal
import Emulab.Lib.Machine
import Mathlib.Data.String.Basic

/-! # The loads of the pnodes

  `pnode_is_match` admits a vnode to a pnode only while there is room, but it
  does not look at the load if the pnode has no type yet. A vnode is removed
  with the type that it has by then, which may have been chosen anew. Where
  neither matters, no pnode is overloaded and none hosts vnodes of two dynamic
  types.
-/

namespace Emulab.Assign

open Machine Outcome Classify Function List Option

variable {R : Type}

/-! ## Section 1: The invariant -/

/-- A vnode is mapped to the pnode. -/
def HostedBy (s : State R) (p : PVertex) (v : VVertex) : Prop :=
  (s.vnode v).assigned = true ∧ (s.vnode v).assignment = p

def DynamicOn (env : Env R) (p : PVertex) (type : String) : Prop :=
  ∃ tr, (env.pg.pnode p).findType type = some tr ∧ tr.staticType = false

def hostedAs (env : Env R) (vn : VVertex → VnodeState) (p : PVertex) (type : String) :
    List VVertex := mappedVnodes env vn fun n => decide (n.assignment = p) && decide (n.type = type)

def loadOf (env : Env R) (vs : List VVertex) : Int := (vs.map fun v => (env.vg.vnode v).typecount).sum

structure LoadInv (env : Env R) (s : State R) : Prop where
  hasType : ∀ p v, HostedBy s p v → ∃ tr, (env.pg.pnode p).findType (s.vnode v).type = some tr
  load : ∀ p type, (s.pnode p).load type = loadOf env (hostedAs env s.vnode p type)
  max : ∀ p type tr, (env.pg.pnode p).findType type = some tr → (s.pnode p).load type ≤ tr.maxLoad
  current : ∀ p, (s.pnode p).typed = true → (s.pnode p).currentTypeRecord = some (s.pnode p).currentType
  typed : ∀ p, (s.pnode p).typed = true → ∀ v, HostedBy s p v →
    DynamicOn env p (s.vnode v).type → (s.vnode v).type = (s.pnode p).currentType
  one : ∀ p v w, HostedBy s p v → HostedBy s p w → DynamicOn env p (s.vnode v).type →
    DynamicOn env p (s.vnode w).type → (s.vnode v).type = (s.vnode w).type

section

variable {env : Env R} {vv : VVertex} {pv : PVertex} {s s' : State R}

theorem loadOf_perm {vs vs' : List VVertex} (h : vs.Perm vs') : loadOf env vs = loadOf env vs' :=
  (h.map _).sum_eq

theorem loadOf_cons (v : VVertex) (vs : List VVertex) :
    loadOf env (v :: vs) = (env.vg.vnode v).typecount + loadOf env vs := by
  simp [loadOf]

theorem Maps.loadOf_hostedAs {vn vn' : VVertex → VnodeState} (h : Maps vv pv vn vn')
    (hvv : vv ∈ env.vg.vertices) (p : PVertex) (type : String) :
    loadOf env (hostedAs env vn' p type) = loadOf env (hostedAs env vn p type) +
      if p = pv ∧ type = (vn' vv).type then (env.vg.vnode vv).typecount else 0 := by
  by_cases hhere : p = pv ∧ type = (vn' vv).type
  · have hperm : (hostedAs env vn' p type).Perm (vv :: hostedAs env vn p type) :=
      h.mapped_perm hvv (by simp [h.assignment, hhere])
    rw [loadOf_perm hperm, loadOf_cons, if_pos hhere, Int.add_comm]
  · have heq : hostedAs env vn' p type = hostedAs env vn p type := by
      refine h.mapped_eq ?_
      rw [h.assignment]
      simp only [Bool.and_eq_false_iff, decide_eq_false_iff_not]
      by_cases hp : p = pv
      · exact Or.inr fun ht => hhere ⟨hp, ht.symm⟩
      · exact Or.inl (Ne.symm hp)
    rw [heq, if_neg hhere, Int.add_zero]

theorem Maps.hostedBy_iff (h : Maps vv pv s.vnode s'.vnode) {p : PVertex} {v : VVertex} :
    HostedBy s' p v ↔ v = vv ∧ p = pv ∨ v ≠ vv ∧ HostedBy s p v := by
  unfold HostedBy
  by_cases hv : v = vv
  · subst hv
    simp only [h.assigned, h.assignment, true_and, ne_eq, not_true_eq_false, false_and, or_false]
    exact eq_comm
  · simp [hv, h.others v hv]

theorem LoadInv.chooseType (hinv : LoadInv env s) (hfree : (s.vnode vv).assigned = false)
    (type : Option String) : LoadInv env (s.chooseType vv type) := by
  have hhosted : ∀ p v, HostedBy (s.chooseType vv type) p v ↔ HostedBy s p v := by
    intro p v
    unfold HostedBy
    rw [chooseType_assigned, chooseType_assignment]
  have hvnode : ∀ p v, HostedBy s p v → (s.chooseType vv type).vnode v = s.vnode v := by
    intro p v hv
    refine chooseType_of_ne vv type s ?_
    rintro rfl
    exact absurd hv.1 (by simp [hfree])
  constructor
  case hasType =>
    intro p v hv
    rw [hhosted] at hv
    rw [hvnode p v hv]
    exact hinv.hasType p v hv
  case load =>
    intro p t
    unfold hostedAs
    rw [mappedVnodes_chooseType env hfree, chooseType_pnode]
    exact hinv.load p t
  case max =>
    rw [chooseType_pnode]
    exact hinv.max
  case current =>
    rw [chooseType_pnode]
    exact hinv.current
  case typed =>
    intro p ht v hv
    rw [hhosted] at hv
    rw [chooseType_pnode] at ht ⊢
    rw [hvnode p v hv]
    exact hinv.typed p ht v hv
  case one =>
    intro p v w hv hw
    rw [hhosted] at hv hw
    rw [hvnode p v hv, hvnode p w hw]
    exact hinv.one p v w hv hw

theorem LoadInv.add (hinv : LoadInv env s) (hvv : vv ∈ env.vg.vertices) {tr : TypeRecord}
    (h : AddsNode env vv pv s s' tr)
    (hroom : (s.pnode pv).load (s.vnode vv).type + (env.vg.vnode vv).typecount ≤ tr.maxLoad)
    (hone : tr.staticType = false → ∀ w, HostedBy s pv w → DynamicOn env pv (s.vnode w).type →
      (s.vnode w).type = (s.vnode vv).type) : LoadInv env s' := by
  have hmaps := h.maps
  have htype := h.vnode_type
  have hpv : s'.pnode pv = (s.pnode pv).host tr.staticType (s.vnode vv).type (env.vg.vnode vv).typecount := by
    rw [h.pnode, update_self]
  have hload : ∀ p type, (s'.pnode p).load type = (s.pnode p).load type +
      if p = pv ∧ type = (s'.vnode vv).type then (env.vg.vnode vv).typecount else 0 := by
    intro p type
    rw [htype]
    by_cases hp : p = pv
    · subst hp
      rw [hpv]
      by_cases ht : type = (s.vnode vv).type
      · subst ht
        simp [PnodeState.host]
      · simp [PnodeState.host, ht]
    · rw [h.pnode, update_of_ne hp, if_neg fun hb => hp hb.1, Int.add_zero]
  have hothers : ∀ v, v ≠ vv → s'.vnode v = s.vnode v := hmaps.others
  -- the vnode is one of the vnodes with its type now
  have hsame : ∀ p v w, HostedBy s' p v → HostedBy s' p w → DynamicOn env p (s'.vnode v).type →
      DynamicOn env p (s'.vnode w).type → v ≠ vv → (s'.vnode v).type = (s'.vnode w).type := by
    intro p v w hv hw hdv hdw hne
    rw [hothers v hne] at hdv ⊢
    have hv' := (hmaps.hostedBy_iff.mp hv).resolve_left fun hb => hne hb.1
    rcases hmaps.hostedBy_iff.mp hw with ⟨rfl, rfl⟩ | ⟨hnew, hw'⟩
    · rw [htype] at hdw ⊢
      obtain ⟨tr', hfind, hdynamic⟩ := hdw
      obtain rfl := some.inj (h.record.symm.trans hfind)
      exact hone hdynamic v hv'.2 hdv
    · rw [hothers w hnew] at hdw ⊢
      exact hinv.one p v w hv'.2 hw' hdv hdw
  constructor
  case hasType =>
    intro p v hv
    rcases hmaps.hostedBy_iff.mp hv with ⟨rfl, rfl⟩ | ⟨hne, hv'⟩
    · rw [htype]
      exact ⟨tr, h.record⟩
    · rw [hothers v hne]
      exact hinv.hasType p v hv'
  case load =>
    intro p type
    rw [hload, hmaps.loadOf_hostedAs hvv, hinv.load]
  case max =>
    intro p type tr' hfind
    rw [hload]
    by_cases hhere : p = pv ∧ type = (s'.vnode vv).type
    · rw [if_pos hhere]
      obtain ⟨rfl, rfl⟩ := hhere
      rw [htype] at hfind ⊢
      obtain rfl := some.inj (h.record.symm.trans hfind)
      exact hroom
    · rw [if_neg hhere, Int.add_zero]
      exact hinv.max p type tr' hfind
  case current =>
    intro p ht
    by_cases hp : p = pv
    · subst hp
      rw [hpv] at ht ⊢
      unfold PnodeState.host at ht ⊢
      by_cases hbefore : (s.pnode p).typed = true
      · simp [hbefore, hinv.current p hbefore]
      · simp only [Bool.not_eq_true] at hbefore
        have hdynamic : tr.staticType = false := by simpa [hbefore] using ht
        simp [hbefore, hdynamic]
    · rw [h.pnode, update_of_ne hp] at ht ⊢
      exact hinv.current p ht
  case typed =>
    intro p ht v hv hdv
    by_cases hp : p = pv
    · subst hp
      rw [hpv] at ht ⊢
      cases hstatic : tr.staticType with
      | false =>
        have hcurrent : ((s.pnode p).host tr.staticType (s.vnode vv).type
            (env.vg.vnode vv).typecount).currentType = (s.vnode vv).type := by
          unfold PnodeState.host
          by_cases hbefore : (s.pnode p).typed = true
          · simp [hbefore, h.type hstatic hbefore]
          · simp [hbefore, hstatic]
        rw [hstatic] at hcurrent
        rw [hcurrent]
        by_cases hne : v = vv
        · rw [hne, htype]
        · rw [hothers v hne] at hdv ⊢
          exact hone hstatic v ((hmaps.hostedBy_iff.mp hv).resolve_left fun hb => hne hb.1).2 hdv
      | true =>
        have hbefore : (s.pnode p).typed = true := by
          simpa [PnodeState.host, hstatic] using ht
        have hcurrent : ((s.pnode p).host true (s.vnode vv).type
            (env.vg.vnode vv).typecount).currentType = (s.pnode p).currentType := by
          simp [PnodeState.host]
        rw [hcurrent]
        rcases hmaps.hostedBy_iff.mp hv with ⟨rfl, -⟩ | ⟨hne, hv'⟩
        · rw [htype] at hdv
          obtain ⟨tr', hfind, hdynamic⟩ := hdv
          obtain rfl := some.inj (h.record.symm.trans hfind)
          rw [hstatic] at hdynamic
          cases hdynamic
        · rw [hothers v hne] at hdv ⊢
          exact hinv.typed p hbefore v hv' hdv
    · rw [h.pnode, update_of_ne hp] at ht ⊢
      obtain ⟨hne, hv'⟩ := (hmaps.hostedBy_iff.mp hv).resolve_left fun hb => hp hb.2
      rw [hothers v hne] at hdv ⊢
      exact hinv.typed p ht v hv' hdv
  case one =>
    intro p v w hv hw hdv hdw
    by_cases hne : v = vv
    · by_cases hne' : w = vv
      · rw [hne, hne']
      · exact (hsame p w v hw hv hdw hdv hne').symm
    · exact hsame p v w hv hw hdv hdw hne

theorem LoadInv.remove {s₀ : State R} (hinv : LoadInv env s₀) (hvv : vv ∈ env.vg.vertices)
    (hcount : 0 ≤ (env.vg.vnode vv).typecount) {type : Option String} {tr : TypeRecord} {pc : Nat → Pclass}
    (h : RemovesNode env vv (s₀.chooseType vv type) s' (s₀.vnode vv).type tr pc) : LoadInv env s' := by
  have hmaps : Maps vv (s₀.vnode vv).assignment s'.vnode s₀.vnode := by
    have hm := h.maps
    rw [chooseType_assignment] at hm
    refine ⟨hm.free, ?_, rfl, fun v hv => ?_⟩
    · rw [← chooseType_assigned vv type]
      exact hm.assigned
    · rw [← hm.others v hv, chooseType_of_ne vv type s₀ hv]
  have hpv : s'.pnode (s₀.vnode vv).assignment = (s₀.pnode (s₀.vnode vv).assignment).leave
      (s₀.vnode vv).type (env.vg.vnode vv).typecount := by
    rw [h.pnode, chooseType_assignment, chooseType_pnode, update_self]
  have hne : ∀ p, p ≠ (s₀.vnode vv).assignment → s'.pnode p = s₀.pnode p := by
    intro p hp
    rw [h.pnode, chooseType_assignment, chooseType_pnode, update_of_ne hp]
  have hload : ∀ p t, (s₀.pnode p).load t = (s'.pnode p).load t +
      if p = (s₀.vnode vv).assignment ∧ t = (s₀.vnode vv).type then (env.vg.vnode vv).typecount
      else 0 := by
    intro p t
    by_cases hp : p = (s₀.vnode vv).assignment
    · subst hp
      rw [hpv]
      by_cases ht : t = (s₀.vnode vv).type
      · subst ht
        simp [PnodeState.leave]
      · simp [PnodeState.leave, ht]
    · rw [hne p hp, if_neg fun hb => hp hb.1, Int.add_zero]
  have hothers : ∀ p v, HostedBy s' p v → HostedBy s₀ p v ∧ s'.vnode v = s₀.vnode v := by
    intro p v hv
    have hv' : v ≠ vv := by
      rintro rfl
      exact absurd hv.1 (by simp [hmaps.free])
    exact ⟨hmaps.hostedBy_iff.mpr (Or.inr ⟨hv', hv⟩), (hmaps.others v hv').symm⟩
  -- a pnode that still has a type has the one it had
  have hpnode : ∀ p, (s'.pnode p).typed = true → (s₀.pnode p).typed = true ∧
      (s'.pnode p).currentType = (s₀.pnode p).currentType ∧
      (s'.pnode p).currentTypeRecord = (s₀.pnode p).currentTypeRecord := by
    intro p ht
    by_cases hp : p = (s₀.vnode vv).assignment
    · subst hp
      rw [hpv] at ht ⊢
      unfold PnodeState.leave at ht ⊢
      dsimp only at ht ⊢
      split_ifs at ht ⊢
      exact ⟨ht, rfl, rfl⟩
    · rw [hne p hp] at ht ⊢
      exact ⟨ht, rfl, rfl⟩
  constructor
  case hasType =>
    intro p v hv
    obtain ⟨hv', heq⟩ := hothers p v hv
    rw [heq]
    exact hinv.hasType p v hv'
  case load =>
    intro p t
    have hsum := hmaps.loadOf_hostedAs hvv p t
    rw [← hinv.load, hload] at hsum
    omega
  case max =>
    intro p t tr' hfind
    have hle := hinv.max p t tr' hfind
    rw [hload] at hle
    split_ifs at hle <;> omega
  case current =>
    intro p ht
    obtain ⟨hty, hcur, hrec⟩ := hpnode p ht
    rw [hcur, hrec]
    exact hinv.current p hty
  case typed =>
    intro p ht v hv hdv
    obtain ⟨hty, hcur, -⟩ := hpnode p ht
    obtain ⟨hv', heq⟩ := hothers p v hv
    rw [heq] at hdv ⊢
    rw [hcur]
    exact hinv.typed p hty v hv' hdv
  case one =>
    intro p v w hv hw hdv hdw
    obtain ⟨hv', heq⟩ := hothers p v hv
    obtain ⟨hw', heq'⟩ := hothers p w hw
    rw [heq] at hdv ⊢
    rw [heq'] at hdw ⊢
    exact hinv.one p v w hv' hw' hdv hdw

end

/-! ## Section 2: What the neighborhood offers -/

/-- What `pnode_is_match` has found out. -/
structure Matches (env : Env R) (vv : VVertex) (pv : PVertex) (s : State R) (tr : TypeRecord) :
    Prop where
  record : (env.pg.pnode pv).findType (s.vnode vv).type = some tr
  room : tr.staticType = true ∨ (s.pnode pv).typed = true →
    (s.pnode pv).load (s.vnode vv).type + (env.vg.vnode vv).typecount ≤ tr.maxLoad
  type : tr.staticType = false → (s.pnode pv).typed = true → (s.pnode pv).currentType = (s.vnode vv).type

section

variable {env : Env R} {vv : VVertex} {pv : PVertex} {s : State R}

theorem pnodeIsMatch_matches (hoverload : env.opts.allowOverload = false) (hcurrent : (s.pnode pv).typed = true →
      (s.pnode pv).currentTypeRecord = some (s.pnode pv).currentType)
    (h : pnodeIsMatch env vv pv s = .ok true) : ∃ tr, Matches env vv pv s tr := by
  unfold pnodeIsMatch at h
  dsimp only at h
  cases hfind : (env.pg.pnode pv).findType (s.vnode vv).type with
  | none =>
    rw [hfind] at h
    cases h
  | some tr =>
    rw [hfind] at h
    dsimp only at h
    rw [hoverload, Bool.false_and] at h
    refine ⟨tr, hfind, fun hor => ?_, fun hdynamic htyped => ?_⟩
    · by_cases hstatic : tr.staticType = true
      · rw [if_pos hstatic] at h
        by_contra hfull
        rw [if_pos (not_le.mp hfull)] at h
        cases h
      · have htyped := hor.resolve_left hstatic
        rw [if_neg hstatic, if_pos htyped] at h
        by_cases htype : (s.pnode pv).currentType = (s.vnode vv).type
        · rw [if_neg (not_not.mpr htype), hcurrent htyped, htype, bind_some, hfind] at h
          dsimp only [map_some] at h
          by_contra hfull
          rw [if_pos (not_le.mp hfull)] at h
          cases h
        · rw [if_pos htype] at h
          cases h
    · rw [if_neg (by simp [hdynamic]), if_pos htyped] at h
      by_contra htype
      rw [if_pos htype] at h
      cases h

/-- A computation that finds nothing or a match. -/
def FindsMatch (env : Env R) (vv : VVertex) (s : State R) (x : Except Fault (Option PVertex)) :
    Prop := Yields True x fun found => ∀ pv, found = some pv → pnodeIsMatch env vv pv s = .ok true

theorem findsMatch_none (env : Env R) (vv : VVertex) (s : State R) :
    FindsMatch env vv s (.ok none) := fun _ h => nomatch h

theorem FindsMatch.orElse {x : Except Fault (Option PVertex)} (h : FindsMatch env vv s x) : FindsMatch env vv s (do
      let isMatch ← pnodeIsMatch env vv pv s
      if isMatch then .ok (some pv) else x) := by
  unfold FindsMatch
  refine Yields.bind (P := fun b => pnodeIsMatch env vv pv s = .ok b)
    (yields_of_ok trivial fun _ h => h) fun b hb => ?_
  cases b with
  | true =>
    intro pv' hpv'
    obtain rfl := some.inj hpv'
    exact hb
  | false => exact h

theorem findConnectedLoop_match (env : Env R) (vv : VVertex) (s : State R) (ves : List VEdge) :
    FindsMatch env vv s (findConnectedLoop env vv s ves) := by
  induction ves with
  | nil => exact findsMatch_none env vv s
  | cons ve ves ih =>
    unfold findConnectedLoop
    dsimp only
    split
    · exact ih
    · split
      · exact ih
      · exact ih.orElse

theorem findMember_match (env : Env R) (vv : VVertex) (s : State R) (pvs : List PVertex) :
    FindsMatch env vv s (findMember env vv s pvs) := by
  induction pvs with
  | nil => exact findsMatch_none env vv s
  | cons pv pvs ih => exact ih.orElse

theorem findPnodeLoop_match (env : Env R) (vv : VVertex) (s : State R) (cs : List Nat) :
    FindsMatch env vv s (findPnodeLoop env vv s cs) := by
  induction cs with
  | nil => exact findsMatch_none env vv s
  | cons c cs ih =>
    unfold findPnodeLoop
    split
    · exact ih
    · split
      · exact ih
      · refine Yields.bind (findMember_match env vv s _) fun found hfound => ?_
        cases found with
        | none => exact ih
        | some pv => exact hfound

theorem pickPnode_match (env : Env R) (vnodeTypeTable : VVertex → List Nat) (turn : Turn)
    (vv : VVertex) (s : State R) : FindsMatch env vv s (pickPnode env vnodeTypeTable turn vv s) := by
  have hconnected : FindsMatch env vv s
      (if turn.connected then findPnodeConnected env turn.visitOrder vv s else .ok none) := by
    split
    · exact findConnectedLoop_match env vv s _
    · exact findsMatch_none env vv s
  unfold pickPnode
  refine Yields.bind hconnected fun found hfound => ?_
  cases found with
  | none => exact findPnodeLoop_match env vv s _
  | some pv => exact hfound

theorem pickVnode_mem (env : Env R) (turn : Turn) {a : Annealing R}
    (ha : ∀ v ∈ a.unassigned, v ∈ env.vg.vertices) : Yields True (pickVnode env turn a) fun r =>
      r.1 ∈ env.vg.vertices ∧ ∀ v ∈ r.2, v ∈ env.vg.vertices := by
  unfold pickVnode
  split
  · dsimp only
    split
    · trivial
    · rename_i vv hvv
      split
      · refine ⟨ha vv (mem_of_getElem? hvv), fun v hv => ha v ?_⟩
        exact (eraseIdx_sublist _ _).mem hv
      · trivial
  · split
    · trivial
    · rename_i vv hvv
      exact ⟨mem_of_getElem? hvv, fun _ hv => nomatch hv⟩

theorem pickType_chooses (env : Env R) (turn : Turn) (vv : VVertex) (s : State R) :
    Yields True (pickType env turn vv s) fun s' => ∃ type, s' = s.chooseType vv type := by
  unfold pickType
  split
  · exact ⟨none, rfl⟩
  · refine Yields.bind (P := fun _ => True) (yields_of_ok trivial fun _ _ => trivial) fun type _ => ?_
    exact ⟨some type, rfl⟩

end

/-! ## Section 3: A turn -/

/-- The vnode would be removed with the type that it is mapped with: that type has been chosen
    again, or it is the current one of the pnode and the new one is not a type of it. -/
def TypeKept (env : Env R) (vv : VVertex) (s₀ s : State R) : Prop :=
  (s₀.vnode vv).assigned = true → (s.vnode vv).type = (s₀.vnode vv).type ∨
    (env.pg.pnode (s₀.vnode vv).assignment).findType (s.vnode vv).type = none ∧
      (s₀.pnode (s₀.vnode vv).assignment).currentTypeRecord = some (s₀.vnode vv).type

/-- A pnode without a current type has room for the vnode, and hosts none of another dynamic type. -/
def UntypedRoom (env : Env R) (vv : VVertex) (pv : PVertex) (s : State R) : Prop :=
  (s.pnode pv).typed = false → ∀ tr, (env.pg.pnode pv).findType (s.vnode vv).type = some tr →
    tr.staticType = false →
    (s.pnode pv).load (s.vnode vv).type + (env.vg.vnode vv).typecount ≤ tr.maxLoad ∧
      ∀ w, HostedBy s pv w → DynamicOn env pv (s.vnode w).type → (s.vnode w).type = (s.vnode vv).type

/-- What a turn has to meet for the loads to stay safe. -/
def TurnOk (env : Env R) (vnodeTypeTable : VVertex → List Nat) (a : Annealing R) (turn : Turn) : Prop :=
  ∀ vv unassigned s, pickVnode env turn a = .ok (vv, unassigned) → pickType env turn vv a.state = .ok s →
    TypeKept env vv a.state s ∧
      ∀ pv, pickPnode env vnodeTypeTable turn vv s = .ok (some pv) → UntypedRoom env vv pv s

/-- What all turns keep that meet the condition. -/
structure AnnealInv (env : Env R) (a : Annealing R) : Prop where
  loads : LoadInv env a.state
  unassigned : ∀ v ∈ a.unassigned, v ∈ env.vg.vertices

section

variable [Double R] {env : Env R} {vv : VVertex} {pv : PVertex} {s s' : State R}

omit [Double R] in
theorem LoadInv.recordOf (hinv : LoadInv env s) (hassigned : (s.vnode vv).assigned = true)
    {type : String} {tr : TypeRecord}
    (h : recordOf env vv (s.vnode vv).assignment s = .ok (type, tr)) : type = (s.vnode vv).type := by
  obtain ⟨tr', hfind⟩ := hinv.hasType _ vv ⟨hassigned, rfl⟩
  unfold Assign.recordOf at h
  dsimp only at h
  rw [hfind] at h
  exact (Prod.mk.inj (Except.ok.inj h)).1.symm

omit [Double R] in
theorem TypeKept.recordOf (hinv : LoadInv env s) {ot : Option String}
    (h : TypeKept env vv s (s.chooseType vv ot)) (hassigned : (s.vnode vv).assigned = true)
    {type : String} {tr : TypeRecord}
    (hrecord : recordOf env vv (s.vnode vv).assignment (s.chooseType vv ot) = .ok (type, tr)) :
    type = (s.vnode vv).type := by
  obtain ⟨tr', hfind⟩ := hinv.hasType _ vv ⟨hassigned, rfl⟩
  unfold Assign.recordOf at hrecord
  dsimp only at hrecord
  rcases h hassigned with hsame | ⟨hnone, hcurrent⟩
  · rw [hsame, hfind] at hrecord
    exact (Prod.mk.inj (Except.ok.inj hrecord)).1.symm
  · rw [hnone, chooseType_pnode, hcurrent] at hrecord
    dsimp only at hrecord
    rw [hfind] at hrecord
    exact (Prod.mk.inj (Except.ok.inj hrecord)).1.symm

theorem LoadInv.removeNode (hinv : LoadInv env s) (hvv : vv ∈ env.vg.vertices)
    (hcount : 0 ≤ (env.vg.vnode vv).typecount) : Yields True (removeNode env vv s) fun s' =>
      LoadInv env s' ∧ (s'.vnode vv).assigned = false ∧ ∀ w, w ≠ vv → s'.vnode w = s.vnode w := by
  refine (removeNode_removes env vv s).imp fun s' ⟨type, tr, pc, h⟩ => ?_
  obtain rfl := hinv.recordOf h.assigned h.record
  have hchosen : RemovesNode env vv (s.chooseType vv none) s' (s.vnode vv).type tr pc := h
  exact ⟨hinv.remove hvv hcount hchosen, h.maps.free, fun w hw => (h.maps.others w hw).symm⟩

theorem freeOther_inv (hcounts : ∀ v ∈ env.vg.vertices, 0 ≤ (env.vg.vnode v).typecount)
    (turn : Turn) {a : Annealing R} (hinv : AnnealInv env a) :
    Yields True (freeOther env turn a) (AnnealInv env) := by
  unfold freeOther
  split
  · exact hinv
  · rename_i w hw
    have hmem : w ∈ env.vg.vertices := mem_rotate.mp (mem_of_find?_eq_some hw)
    refine Yields.bind (hinv.loads.removeNode hmem (hcounts w hmem)) fun s' ⟨hloads, _⟩ => ?_
    refine ⟨hloads, fun v hv => ?_⟩
    rcases mem_cons.mp hv with rfl | hv
    · exact hmem
    · exact hinv.unassigned v hv

/-- The vnode gets back to where it has been, or stays unmapped. -/
theorem rejectMove_inv (hcounts : ∀ v ∈ env.vg.vertices, 0 ≤ (env.vg.vnode v).typecount)
    (turn : Turn) {s₀ : State R} (hinv₀ : LoadInv env s₀) (hvv : vv ∈ env.vg.vertices)
    {a : Annealing R} (hinv : AnnealInv env a) (hothers : ∀ w, w ≠ vv → a.state.vnode w = s₀.vnode w)
    (hkept : (s₀.vnode vv).assigned = true → (a.state.vnode vv).type = (s₀.vnode vv).type ∨
        (env.pg.pnode (s₀.vnode vv).assignment).findType (a.state.vnode vv).type = none) :
    Yields True (rejectMove env turn vv (s₀.vnode vv).assigned (s₀.vnode vv).assignment a) (AnnealInv env) := by
  unfold rejectMove
  refine Yields.bind (P := fun s => (LoadInv env s ∧ (s.vnode vv).assigned = false ∧
    ∀ w, w ≠ vv → s.vnode w = a.state.vnode w) ∧ (s.vnode vv).type = (a.state.vnode vv).type) ?_
    fun s ⟨⟨hloads, hfree, hsame⟩, htype⟩ => ?_
  · refine Yields.imp (hinv.loads.removeNode hvv (hcounts vv hvv)).and_ok fun s ⟨hs, hok⟩ => ⟨hs, ?_⟩
    obtain ⟨type, tr, pc, h⟩ := (removeNode_removes env vv a.state).of_ok hok
    rw [h.vnode, update_self]
  · split
    · rename_i hassigned
      refine Yields.bind (addNode_adds env vv _ false false false turn.randomBack s) ?_
      intro ⟨rc, s'⟩ hr
      rcases hr with ⟨-, hs, -⟩ | ⟨-, tr, hadds⟩
      · dsimp only at hs ⊢
        rw [hs]
        exact ⟨hloads, hinv.unassigned⟩
      · refine ⟨?_, hinv.unassigned⟩
        -- it has its old type, or it could not have been added
        have hold : (s.vnode vv).type = (s₀.vnode vv).type := by
          rcases hkept hassigned with hk | hnone
          · rw [htype, hk]
          · rw [← htype, hadds.record] at hnone
            cases hnone
        have hmaps : Maps vv (s₀.vnode vv).assignment s.vnode s₀.vnode :=
          ⟨hfree, hassigned, rfl, fun v hv => by rw [hsame v hv, hothers v hv]⟩
        refine hloads.add hvv hadds ?_ fun hdynamic w hw hdw => ?_
        · have hmax := hinv₀.max (s₀.vnode vv).assignment (s.vnode vv).type tr hadds.record
          have hsum := hmaps.loadOf_hostedAs hvv (s₀.vnode vv).assignment (s.vnode vv).type
          rw [if_pos ⟨rfl, hold⟩, ← hinv₀.load, ← hloads.load] at hsum
          omega
        · have hne : w ≠ vv := by
            rintro rfl
            exact absurd hw.1 (by simp [hfree])
          have hw₀ : HostedBy s₀ (s₀.vnode vv).assignment w := hmaps.hostedBy_iff.mpr (Or.inr ⟨hne, hw⟩)
          have heq : s.vnode w = s₀.vnode w := (hmaps.others w hne).symm
          rw [heq] at hdw ⊢
          rw [hold]
          exact hinv₀.one _ w vv hw₀ ⟨hassigned, rfl⟩ hdw ⟨tr, hold ▸ hadds.record, hdynamic⟩
    · refine ⟨hloads, fun v hv => ?_⟩
      rcases mem_cons.mp hv with rfl | hv
      · exact hvv
      · exact hinv.unassigned v hv

/-- What is known when the vnode of the turn has been freed. -/
structure Freed (env : Env R) (vv : VVertex) (s₀ s : State R) (type : Option String) : Prop where
  loads : LoadInv env s
  free : (s.vnode vv).assigned = false
  type : (s.vnode vv).type = ((s₀.chooseType vv type).vnode vv).type
  others : ∀ w, w ≠ vv → s.vnode w = s₀.vnode w
  load : ∀ p t, (s.pnode p).load t ≤ (s₀.pnode p).load t

theorem freed_of_turn {s₀ : State R} (hinv₀ : LoadInv env s₀) (hvv : vv ∈ env.vg.vertices)
    (hcount : 0 ≤ (env.vg.vnode vv).typecount) {type : Option String}
    (hkept : TypeKept env vv s₀ (s₀.chooseType vv type)) :
    Yields True (if (s₀.vnode vv).assigned then removeNode env vv (s₀.chooseType vv type)
      else .ok (s₀.chooseType vv type)) fun s => Freed env vv s₀ s type := by
  split
  · rename_i hassigned
    refine (removeNode_removes env vv _).imp fun s ⟨t, tr, pc, h⟩ => ?_
    have hrecord := h.record
    rw [chooseType_assignment] at hrecord
    obtain rfl := hkept.recordOf hinv₀ hassigned hrecord
    refine ⟨hinv₀.remove hvv hcount h, h.maps.free, ?_, fun w hw => ?_, fun p t => ?_⟩
    · rw [h.vnode, update_self]
    · rw [← h.maps.others w hw, chooseType_of_ne vv type s₀ hw]
    · rw [h.pnode, chooseType_assignment, chooseType_pnode]
      by_cases hp : p = (s₀.vnode vv).assignment
      · subst hp
        rw [update_self]
        unfold PnodeState.leave
        dsimp only
        by_cases ht : t = (s₀.vnode vv).type
        · subst ht
          rw [update_self]
          omega
        · rw [update_of_ne ht]
      · rw [update_of_ne hp]
  · rename_i hfree
    rw [Bool.not_eq_true] at hfree
    refine ⟨hinv₀.chooseType hfree type, ?_, rfl, fun w hw => chooseType_of_ne vv type s₀ hw, ?_⟩
    · rw [chooseType_assigned, hfree]
    · rw [chooseType_pnode]
      exact fun p t => le_rfl

theorem tryMove_inv (hcounts : ∀ v ∈ env.vg.vertices, 0 ≤ (env.vg.vnode v).typecount)
    (turn : Turn) {s₀ : State R} (hinv₀ : LoadInv env s₀) (hvv : vv ∈ env.vg.vertices)
    {type : Option String} (hkept : TypeKept env vv s₀ (s₀.chooseType vv type))
    {tr : TypeRecord} (hmatch : Matches env vv pv (s₀.chooseType vv type) tr)
    (hroom : UntypedRoom env vv pv (s₀.chooseType vv type)) {a : Annealing R}
    (hfreed : Freed env vv s₀ a.state type) (ha : ∀ v ∈ a.unassigned, v ∈ env.vg.vertices) :
    Yields True (tryMove env turn vv (s₀.vnode vv).assigned (s₀.vnode vv).assignment pv a) (AnnealInv env) := by
  have hload := hmatch.room
  have htyped := hmatch.type
  have hspace := fun h => hroom h tr hmatch.record
  rw [← hfreed.type, chooseType_pnode] at hload hspace
  rw [← hfreed.type, chooseType_pnode] at htyped
  have hle : (a.state.pnode pv).load (a.state.vnode vv).type + (env.vg.vnode vv).typecount ≤ tr.maxLoad := by
    have hmono := hfreed.load pv (a.state.vnode vv).type
    cases hstatic : tr.staticType with
    | true => have := hload (Or.inl hstatic); omega
    | false =>
      cases ht : (s₀.pnode pv).typed with
      | true => have := hload (Or.inr ht); omega
      | false => have := (hspace ht hstatic).1; omega
  unfold tryMove
  refine Yields.bind (addNode_adds env vv pv false false false turn.random a.state) fun r hr => ?_
  rcases hr with ⟨hrc, hs, -⟩ | ⟨hrc, tr', hadds⟩
  · -- refused
    dsimp only
    rw [if_pos (by rw [hrc]; decide), hs]
    refine ⟨hfreed.loads, fun v hv => ?_⟩
    rcases mem_cons.mp hv with rfl | hv
    · exact hvv
    · exact ha v hv
  · dsimp only
    rw [if_neg (by rw [hrc]; decide)]
    obtain rfl : tr' = tr := by
      have h := hmatch.record
      rw [← hfreed.type, hadds.record] at h
      exact some.inj h
    have hinv : AnnealInv env ⟨r.2, a.unassigned⟩ := by
      refine ⟨hfreed.loads.add hvv hadds hle fun hdynamic w hw hdw => ?_, ha⟩
      have hne : w ≠ vv := by
        rintro rfl
        exact absurd hw.1 (by simp [hfreed.free])
      have heq := hfreed.others w hne
      have hw₀ : HostedBy s₀ pv w := by
        unfold HostedBy at hw ⊢
        rw [← heq]
        exact hw
      cases ht : (s₀.pnode pv).typed with
      | true =>
        rw [heq] at hdw ⊢
        rw [hinv₀.typed pv ht w hw₀ hdw, htyped hdynamic ht]
      | false =>
        have hothers := (hspace ht hdynamic).2 w
        unfold HostedBy at hothers
        rw [chooseType_assigned, chooseType_assignment, chooseType_of_ne vv type s₀ hne, ← heq] at hothers
        exact hothers hw hdw
    split
    · trivial
    · split
      · exact hinv
      · refine rejectMove_inv hcounts turn hinv₀ hvv hinv (fun w hw => ?_) fun hassigned => ?_
        · exact (hadds.maps.others w hw).trans (hfreed.others w hw)
        · rw [hadds.vnode_type, hfreed.type]
          exact (hkept hassigned).imp_right And.left

/-- **Step lemma.** -/
theorem annealTurn_inv (hoverload : env.opts.allowOverload = false)
    (hcounts : ∀ v ∈ env.vg.vertices, 0 ≤ (env.vg.vnode v).typecount)
    (vnodeTypeTable : VVertex → List Nat) {a : Annealing R} (hinv : AnnealInv env a) {turn : Turn}
    (hok : TurnOk env vnodeTypeTable a turn) :
    Yields True (annealTurn env vnodeTypeTable a turn) (AnnealInv env) := by
  unfold annealTurn
  refine Yields.bind (pickVnode_mem env turn hinv.unassigned).and_ok ?_
  intro ⟨vv, unassigned⟩ ⟨⟨hvv, hmem⟩, hpick⟩
  dsimp only at hvv hmem ⊢
  refine Yields.bind (pickType_chooses env turn vv a.state).and_ok fun s ⟨⟨type, hs⟩, hpickType⟩ => ?_
  obtain ⟨hkept, hroom⟩ := hok vv unassigned s hpick hpickType
  subst hs
  refine Yields.bind (pickPnode_match env vnodeTypeTable turn vv _).and_ok fun found ⟨hfound, hpnode⟩ => ?_
  refine Yields.bind (freed_of_turn hinv.loads hvv (hcounts vv hvv) hkept) fun s hfreed => ?_
  cases found with
  | none =>
    refine freeOther_inv hcounts turn ⟨hfreed.loads, fun v hv => ?_⟩
    rcases mem_cons.mp hv with rfl | hv
    · exact hvv
    · exact hmem v hv
  | some pv =>
    obtain ⟨tr, hmatch⟩ := pnodeIsMatch_matches hoverload
      (fun ht => by rw [chooseType_pnode] at ht ⊢; exact hinv.loads.current pv ht) (hfound pv rfl)
    exact tryMove_inv hcounts turn hinv.loads hvv hkept hmatch (hroom pv hpnode) hfreed hmem

end

/-! ## Section 4: Runs -/

/-- No record is overloaded, all loads are those of the vnodes that are assigned, and a pnode hosts
    vnodes of one dynamic type at most. -/
structure LoadsSafe (env : Env R) (s : State R) : Prop where
  max : ∀ p type tr, (env.pg.pnode p).findType type = some tr → (s.pnode p).load type ≤ tr.maxLoad
  load : ∀ p type tr, (env.pg.pnode p).findType type = some tr →
    (s.pnode p).load type = loadOf env (hostedAs env s.vnode p type)
  one : ∀ p v w, HostedBy s p v → HostedBy s p w → DynamicOn env p (s.vnode v).type →
    DynamicOn env p (s.vnode w).type → (s.vnode v).type = (s.vnode w).type

theorem LoadInv.safe {env : Env R} {s : State R} (hinv : LoadInv env s) : LoadsSafe env s :=
  ⟨hinv.max, fun p type _ _ => hinv.load p type, hinv.one⟩

variable [Double R]

def annealStep (env : Env R) (vnodeTypeTable : VVertex → List Nat) (a : Annealing R) (turn : Turn) :
    Option (Annealing R) := (annealTurn env vnodeTypeTable a turn).toOption

theorem annealInv_start {env : Env R}
    (hmax : ∀ p type tr, (env.pg.pnode p).findType type = some tr → 0 ≤ tr.maxLoad) :
    AnnealInv env (annealStart env) := by
  obtain ⟨hpnode, -, hfree⟩ := initScore_hosting env
  have hnone : ∀ p v, ¬HostedBy (annealStart env).state p v := fun p v hv =>
    absurd hv.1 (by simp [annealStart, hfree])
  refine ⟨?_, fun v hv => mem_reverse.mp hv⟩
  constructor
  case hasType => exact fun p v hv => absurd hv (hnone p v)
  case load =>
    intro p type
    have hempty : hostedAs env (annealStart env).state.vnode p type = [] := by
      unfold hostedAs mappedVnodes annealStart
      simp [hfree]
    rw [hempty, annealStart, hpnode]
    rfl
  case max =>
    intro p type tr hfind
    rw [annealStart, hpnode]
    exact hmax p type tr hfind
  case current =>
    intro p ht
    rw [annealStart, hpnode] at ht
    cases ht
  case typed => exact fun p _ v hv => absurd hv (hnone p v)
  case one => exact fun p v _ hv => absurd hv (hnone p v)

/-- **Load safety.** Without overloading, and with no negative maximum load or typecount, the loads
    are safe at the end of every run of turns that meet the condition. -/
theorem anneal_loads_safe {env : Env R} (hoverload : env.opts.allowOverload = false)
    (hmax : ∀ p type tr, (env.pg.pnode p).findType type = some tr → 0 ≤ tr.maxLoad)
    (hcounts : ∀ v ∈ env.vg.vertices, 0 ≤ (env.vg.vnode v).typecount)
    (vnodeTypeTable : VVertex → List Nat) (turns : List Turn)
    (hok : Meets (annealStep env vnodeTypeTable) (TurnOk env vnodeTypeTable) (annealStart env) turns)
    {a : Annealing R} (hrun : run (annealStep env vnodeTypeTable) (annealStart env) turns = some a) :
    LoadsSafe env a.state := by
  have hinv : AnnealInv env a := by
    refine run_inv (AnnealInv env) (fun a turn a' ha ht hstep => ?_) (annealInv_start hmax) hok hrun
    have hturn : annealTurn env vnodeTypeTable a turn = .ok a' := by
      unfold annealStep at hstep
      cases h : annealTurn env vnodeTypeTable a turn with
      | error e =>
        rw [h] at hstep
        cases hstep
      | ok b =>
        rw [h] at hstep
        rw [some.inj hstep]
    exact (annealTurn_inv hoverload hcounts vnodeTypeTable ha ht).of_ok hturn
  exact hinv.loads.safe

/-- A PC with one slot, and a vnode of a vclass that takes up `n` slots. -/
def oneSlot (n : Int) : Env ℚ where
  vg :=
    { vertices := [1]
      edges := []
      vnode := fun _ =>
        { name := "a", type := "", typecount := n, vclass := some "hw", desires := [],
          disallowTrivialMix := false, subnodeOf := none, subnodes := [] }
      vlink := fun _ =>
        { src := 1, dst := 1, type := "ethernet", bandwidth := 100,
          adjustToNativeBandwidth := false, fixSrcIface := false, srcIface := "",
          fixDstIface := false, dstIface := "", emulated := false, allowTrivial := false,
          allowInterswitch := true }
      vertices_nodup := nodup_one
      edges_nodup := nodup_nil
      src_mem := by simp
      dst_mem := by simp }
  pg :=
    { edges := []
      pnode := fun _ =>
        { name := "pc1", types := [("pc", ⟨1, false⟩)], typeList := [("pc", 1)], features := [],
          switches := [], isSwitch := false, trivialBw := 0, subnodeOf := none, myClass := some 0,
          myOwnClass := none }
      plink := fun _ =>
        { src := 1, dst := 1, srcnode := "pc1", srciface := "eth0", dstiface := "eth0",
          isType := .normal, types := ["ethernet"], bandwidth := 100, fixends := false }
      slink := fun _ _ => none
      switchPreds := fun _ p => p
      numSwitches := 0
      switches_isSwitch := noSwitches
      slink_interswitch := noSlink }
  opts := ⟨true, false, false, false, false, false⟩
  score := scoreConstants fun x _ => x
  feature := fun _ => ⟨false, false, false, false, false⟩
  ptypeMaxUsers := fun _ => -1
  pclass := fun _ => { usedMembers := 0, disabled := false, members := [("pc", [1])] }
  vclass := fun _ => { members := [("pc", 0)], weight := 1, score := 0, dominant := "pc" }
  vclass_keys_nodup := by simp
  vclass_members_zero := by simp
  strLt := fun a b => decide (a < b)
  strLt_asymm := string_lt_asymm
  strLt_total := string_lt_total
  hashOrder := id
  hashOrder_perm := id_perm

/-- The vnode is taken with its dominant type, and the move is accepted. -/
def firstTurn : Turn where
  choice := 0
  coin := 0
  type := 0
  connected := false
  visitOrder := ⟨id, fun l => .refl l⟩
  traversalOrder := ⟨id, fun l => .refl l⟩
  toremove := 0
  random := fun _ => 0
  accepttrans := true
  randomBack := fun _ => 0

/-- Two slots are taken of one. -/
theorem oneSlot_overloaded : ∃ a,
    run (annealStep (oneSlot 2) fun _ => [0]) (annealStart (oneSlot 2)) [firstTurn] = some a ∧
      ((oneSlot 2).pg.pnode 1).findType "pc" = some ⟨1, false⟩ ∧ (a.state.pnode 1).load "pc" = 2 ∧
      ¬LoadsSafe (oneSlot 2) a.state := by
  have hrun : (run (annealStep (oneSlot 2) fun _ => [0]) (annealStart (oneSlot 2))
      [firstTurn]).map (fun a => (a.state.pnode 1).load "pc") = some 2 := by decide +kernel
  obtain ⟨a, ha, hload⟩ := map_eq_some_iff.mp hrun
  refine ⟨a, ha, rfl, hload, fun hsafe => ?_⟩
  have hle := hsafe.max 1 "pc" ⟨1, false⟩ rfl
  rw [hload] at hle
  exact absurd hle (by decide)

theorem oneSlot_findType {n : Int} {p : PVertex} {type : String} {tr : TypeRecord}
    (h : ((oneSlot n).pg.pnode p).findType type = some tr) : tr = ⟨1, false⟩ := by
  by_cases htype : type = "pc"
  · subst htype
    exact (some.inj h).symm
  · simp [oneSlot, Pnode.findType, lookup_cons, beq_eq_false_iff_ne.mpr htype] at h

/-- One slot is enough for a vnode that takes up one. -/
theorem anneal_loads_safe_oneSlot : ∃ a,
    run (annealStep (oneSlot 1) fun _ => [0]) (annealStart (oneSlot 1)) [firstTurn] = some a ∧
      (a.state.pnode 1).load "pc" = 1 ∧ LoadsSafe (oneSlot 1) a.state := by
  have hrun : (run (annealStep (oneSlot 1) fun _ => [0]) (annealStart (oneSlot 1))
      [firstTurn]).map (fun a => (a.state.pnode 1).load "pc") = some 1 := by decide +kernel
  obtain ⟨a, ha, hload⟩ := map_eq_some_iff.mp hrun
  have hok : TurnOk (oneSlot 1) (fun _ => [0]) (annealStart (oneSlot 1)) firstTurn := by
    obtain ⟨hpnode, -, hfree⟩ := initScore_hosting (oneSlot 1)
    intro vv unassigned s _ hpick
    obtain ⟨type, rfl⟩ := (pickType_chooses (oneSlot 1) firstTurn vv _).of_ok hpick
    refine ⟨fun hassigned => ?_, fun pv _ _ tr hfind _ => ⟨?_, fun w hw => ?_⟩⟩
    · rw [annealStart, hfree] at hassigned
      cases hassigned
    · rw [oneSlot_findType hfind, chooseType_pnode, annealStart, hpnode]
      exact le_rfl
    · have hw' := hw.1
      rw [chooseType_assigned, annealStart, hfree] at hw'
      cases hw'
  have hopts : (oneSlot 1).opts.allowOverload = false := rfl
  refine ⟨a, ha, hload, anneal_loads_safe hopts ?_ ?_ (fun _ => [0]) [firstTurn]
    (And.intro hok fun _ _ => trivial) ha⟩
  · intro p type tr hfind
    rw [oneSlot_findType hfind]
    decide
  · exact fun v _ => Int.zero_le_ofNat 1

end Emulab.Assign
