import Emulab.Assign.LinkFrames
import Emulab.Assign.Score

/-! # What scoring a node leaves alone

  The parts of `add_node` and `remove_node` that are about types, loads,
  features and classes touch neither assignments nor links.
-/

namespace Emulab.Assign

open Outcome

variable {R : Type}

/-! ## Section 1: Steps that score nodes -/

/-- A step that changes nothing of the assignments and of links. -/
structure ScoresNode (s s' : State R) : Prop where
  vnode : s'.vnode = s.vnode
  vnodeLinks : s'.vnodeLinks = s.vnodeLinks
  vlink : s'.vlink = s.vlink
  pnodeLinks : s'.pnodeLinks = s.pnodeLinks
  plink : s'.plink = s.plink
  drift : s'.drift = s.drift
  unassigned : s'.vinfo.unassigned = s.vinfo.unassigned
  noConnection : s'.vinfo.noConnection = s.vinfo.noConnection
  linkUsers : s'.vinfo.linkUsers = s.vinfo.linkUsers

theorem ScoresNode.refl (s : State R) : ScoresNode s s :=
  ⟨rfl, rfl, rfl, rfl, rfl, rfl, rfl, rfl, rfl⟩

theorem ScoresNode.trans {s₁ s₂ s₃ : State R} (h₁ : ScoresNode s₁ s₂) (h₂ : ScoresNode s₂ s₃) :
    ScoresNode s₁ s₃ where
  vnode := h₂.vnode.trans h₁.vnode
  vnodeLinks := h₂.vnodeLinks.trans h₁.vnodeLinks
  vlink := h₂.vlink.trans h₁.vlink
  pnodeLinks := h₂.pnodeLinks.trans h₁.pnodeLinks
  plink := h₂.plink.trans h₁.plink
  drift := h₂.drift.trans h₁.drift
  unassigned := h₂.unassigned.trans h₁.unassigned
  noConnection := h₂.noConnection.trans h₁.noConnection
  linkUsers := h₂.linkUsers.trans h₁.linkUsers

theorem ScoresNode.ite {c : Prop} [Decidable c] {s s₁ s₂ : State R} (h₁ : c → ScoresNode s s₁)
    (h₂ : ¬c → ScoresNode s s₂) : ScoresNode s (if c then s₁ else s₂) := by
  split
  · exact h₁ ‹_›
  · exact h₂ ‹_›

theorem scoresNode_setPnode (s : State R) (pv : PVertex) (f : PnodeState → PnodeState) :
    ScoresNode s (s.setPnode pv f) := ⟨rfl, rfl, rfl, rfl, rfl, rfl, rfl, rfl, rfl⟩

theorem scoresNode_setPclass (s : State R) (c : Nat) (f : Pclass → Pclass) :
    ScoresNode s (s.setPclass c f) := ⟨rfl, rfl, rfl, rfl, rfl, rfl, rfl, rfl, rfl⟩

theorem scoresNode_inUseGlobally (s : State R) (f : Nat → Int) :
    ScoresNode s { s with inUseGlobally := f } := ⟨rfl, rfl, rfl, rfl, rfl, rfl, rfl, rfl, rfl⟩

variable [Double R] (env : Env R)

theorem scoresNode_sadd (s : State R) (amount : R) : ScoresNode s (s.sadd amount) :=
  ⟨rfl, rfl, rfl, rfl, rfl, rfl, rfl, rfl, rfl⟩

theorem scoresNode_ssub (s : State R) (amount : R) : ScoresNode s (s.ssub amount) :=
  ⟨rfl, rfl, rfl, rfl, rfl, rfl, rfl, rfl, rfl⟩

/-! ## Section 2: Types, loads and subnodes -/

theorem usePtypes_scores (types : List (String × Int)) (s : State R) : ScoresNode s (usePtypes env types s) := by
  induction types generalizing s with
  | nil => exact .refl s
  | cons type types ih =>
    unfold usePtypes
    dsimp only [addUsers]
    refine .trans ?_ (ih _)
    split_ifs <;>
      refine ⟨rfl, rfl, rfl, rfl, rfl, ?_, rfl, rfl, rfl⟩ <;>
      first | rfl | (simp only [State.drift, ViolatedInfo.countViolations, State.sadd]; omega)

theorem releasePtypes_scores (types : List (String × Int)) (s : State R) :
    Ends Fault.Unmarked (releasePtypes env types s) (ScoresNode s) := by
  induction types generalizing s with
  | nil => exact ScoresNode.refl s
  | cons type types ih =>
    unfold releasePtypes
    unfold removeUsers
    dsimp only
    by_cases husers : 0 ≤ s.ptypeUsers type.1 - type.2
    · rw [if_pos husers]
      refine (ih _).imp fun s' h => .trans ?_ h
      dsimp only
      split_ifs <;>
        refine ⟨rfl, rfl, rfl, rfl, rfl, ?_, rfl, rfl, rfl⟩ <;>
        first | rfl | (simp only [State.drift, ViolatedInfo.countViolations, State.ssub]; omega)
    · rw [if_neg husers]
      exact unmarked_assertion

theorem addPenalties_scores (n : Nat) (s : State R) : ScoresNode s (addPenalties env n s) := by
  induction n generalizing s with
  | zero => exact .refl s
  | succ n ih =>
    refine ScoresNode.trans ?_ (ih _)
    refine ⟨rfl, rfl, rfl, rfl, rfl, ?_, rfl, rfl, rfl⟩
    simp only [State.drift, ViolatedInfo.countViolations, State.sadd]
    omega

theorem removePenalties_scores (n : Nat) (s : State R) : ScoresNode s (removePenalties env n s) := by
  induction n generalizing s with
  | zero => exact .refl s
  | succ n ih =>
    refine ScoresNode.trans ?_ (ih _)
    refine ⟨rfl, rfl, rfl, rfl, rfl, ?_, rfl, rfl, rfl⟩
    simp only [State.drift, ViolatedInfo.countViolations, State.ssub]
    omega

theorem addSubnodes_scores (n : Nat) (s : State R) : ScoresNode s (addSubnodes env n s) := by
  induction n generalizing s with
  | zero => exact .refl s
  | succ n ih =>
    refine ScoresNode.trans ?_ (ih _)
    refine ⟨rfl, rfl, rfl, rfl, rfl, ?_, rfl, rfl, rfl⟩
    simp only [State.drift, ViolatedInfo.countViolations, State.sadd]
    omega

theorem removeSubnodes_scores (n : Nat) (s : State R) : ScoresNode s (removeSubnodes env n s) := by
  induction n generalizing s with
  | zero => exact .refl s
  | succ n ih =>
    refine ScoresNode.trans ?_ (ih _)
    refine ⟨rfl, rfl, rfl, rfl, rfl, ?_, rfl, rfl, rfl⟩
    simp only [State.drift, ViolatedInfo.countViolations, State.ssub]
    omega

omit [Double R] in
theorem takeType_scores {env : Env R} {vv : VVertex} {pv : PVertex} {s s' : State R}
    {tr : TypeRecord} (h : takeType env vv pv s = some (tr, s')) : ScoresNode s s' := by
  unfold takeType at h
  dsimp only at h
  split at h
  · cases h
  · split_ifs at h <;> cases h
    · exact .refl s
    · exact scoresNode_setPnode s pv _
    · exact .refl s

theorem scoreStrategies_scores (old new maxLoad : Int) (s : State R) :
    ScoresNode s (scoreStrategies env old new maxLoad s) := by
  have hstrategy (c : Prop) [Decidable c] (x y : R) (s : State R) := ScoresNode.ite (c := c)
    (fun _ => (scoresNode_ssub s x).trans (scoresNode_sadd _ y)) fun _ => .refl s
  exact (hstrategy _ _ _ s).trans (hstrategy _ _ _ _)

theorem scoreLoad_scores (vv : VVertex) (pv : PVertex) (type : String)
    (tr : TypeRecord) (s : State R) : ScoresNode s (scoreLoad env vv pv type tr s) := by
  have hover (old load maxLoad : Int) (s : State R) : ScoresNode s (scoreOverload env old load maxLoad s) :=
    .ite (fun _ => addPenalties_scores env _ s) fun _ => .refl s
  have hnew (total : Int) (s : State R) : ScoresNode s (scoreNewPnode env pv total s) :=
    .ite (fun _ => (scoresNode_sadd s _).trans (usePtypes_scores env _ _)) fun _ => .refl s
  exact (((scoresNode_setPnode s pv _).trans (hover _ _ _ _)).trans (hnew _ _)).trans
    (scoreStrategies_scores env _ _ _ _)

omit [Double R] in
theorem pclassResetMaps_scores (pv : PVertex) (s : State R) :
    Ends Fault.Unmarked (pclassResetMaps env pv s) (ScoresNode s) := by
  unfold pclassResetMaps
  split
  · exact unmarked_nullPointer
  · exact scoresNode_setPclass s _ _

theorem releasePnode_scores (pv : PVertex) (s : State R) :
    Ends Fault.Unmarked (releasePnode env pv s) (ScoresNode s) := by
  have hfree := (scoresNode_ssub s env.score.pnode).trans (scoresNode_setPnode _ pv
    fun p => { p with typed := false, currentType := "", currentTypeRecord := none })
  refine (pclassResetMaps_scores env pv _).bind fun s₁ h₁ => ?_
  exact (releasePtypes_scores env _ s₁).imp fun s₂ h₂ => (hfree.trans h₁).trans h₂

theorem unscoreLoad_scores (vv : VVertex) (pv : PVertex) (type : String) (tr : TypeRecord) (s : State R) :
    Ends Fault.Unmarked (unscoreLoad env vv pv type tr s) (ScoresNode s) := by
  unfold unscoreLoad
  dsimp only
  have hload := (scoresNode_setPnode s pv fun p => { p with
    load := Function.update p.load type (p.load type + -(env.vg.vnode vv).typecount)
    totalLoad := p.totalLoad + -(env.vg.vnode vv).typecount }).trans
    (scoreStrategies_scores env ((s.pnode pv).load type - (env.vg.vnode vv).typecount + 1)
      ((s.pnode pv).load type - (env.vg.vnode vv).typecount) tr.maxLoad _)
  split_ifs
  · exact (releasePnode_scores env pv _).imp fun s' h => hload.trans h
  · exact hload.trans (removePenalties_scores env _ _)
  · exact hload

/-! ## Section 3: Features and classes -/

theorem addGlobalUser_scores (f : NodeFd R) (s : State R) : ScoresNode s (addGlobalUser env f s).2 := by
  unfold addGlobalUser
  dsimp only
  split_ifs <;> exact scoresNode_inUseGlobally s _

theorem removeGlobalUser_scores (f : NodeFd R) (s : State R) :
    Ends Fault.Unmarked (removeGlobalUser env f s) fun r => ScoresNode s r.2 := by
  unfold removeGlobalUser
  dsimp only
  by_cases huse : 0 ≤ s.inUseGlobally f.fd - 1
  · rw [if_pos huse]
    split_ifs <;> exact scoresNode_inUseGlobally s _
  · rw [if_neg huse]
    exact unmarked_assertion

theorem scoreFd_scores (pv : PVertex) (add : Bool) (m : Membership R) (s : State R) :
    Ends Fault.Unmarked (scoreFd env pv add m s) fun r => ScoresNode s r.2 := by
  have hlocal (i : Nat) (used : R) : ScoresNode s (setUsedLocal s pv i used) :=
    ⟨rfl, rfl, rfl, rfl, rfl, rfl, rfl, rfl, rfl⟩
  unfold scoreFd
  split
  · split_ifs
    · exact hlocal _ _
    · exact hlocal _ _
    · exact ScoresNode.refl s
  · exact ScoresNode.refl s
  · split
    · exact ScoresNode.refl s
    · split
      · split
        · exact addGlobalUser_scores env _ s
        · exact removeGlobalUser_scores env _ s
      · exact ScoresNode.refl s

theorem scoreFdsLoop_scores (pv : PVertex) (add : Bool) (ms : List (Membership R))
    (sv : ScoreAndViolations R) (s : State R) :
    Ends Fault.Unmarked (scoreFdsLoop env pv add ms sv s) fun r => ScoresNode s r.2 := by
  induction ms generalizing sv s with
  | nil => exact ScoresNode.refl s
  | cons m ms ih =>
    unfold scoreFdsLoop
    refine (scoreFd_scores env pv add m s).bind fun r hr => ?_
    exact (ih _ r.2).imp fun r' hr' => hr.trans hr'

theorem scoreDesires_scores (vv : VVertex) (pv : PVertex) (isFixed : Bool)
    (s : State R) : Ends Fault.Unmarked (scoreDesires env vv pv isFixed s) (ScoresNode s) := by
  unfold scoreDesires
  refine (scoreFdsLoop_scores env pv true _ _ s).bind ?_
  rintro ⟨sv, s₁⟩ h₁
  dsimp only
  refine Ends.imp (P := ScoresNode s₁) ?_ fun s' h => h₁.trans h
  split_ifs
  · refine ⟨rfl, rfl, rfl, rfl, rfl, ?_, rfl, rfl, rfl⟩
    simp only [State.drift, ViolatedInfo.countViolations, State.sadd]
    omega
  · exact scoresNode_sadd s₁ _

theorem unscoreDesires_scores (vv : VVertex) (pv : PVertex) (s : State R) :
    Ends Fault.Unmarked (unscoreDesires env vv pv s) (ScoresNode s) := by
  unfold unscoreDesires
  refine (scoreFdsLoop_scores env pv false _ _ s).bind ?_
  rintro ⟨sv, s₁⟩ h₁
  refine h₁.trans ⟨rfl, rfl, rfl, rfl, rfl, ?_, rfl, rfl, rfl⟩
  simp only [State.drift, ViolatedInfo.countViolations, State.ssub]
  omega

theorem scoreVclass_scores (vv : VVertex) (s : State R) : ScoresNode s (scoreVclass env vv s) := by
  unfold scoreVclass
  split
  · exact .refl s
  · dsimp only
    split_ifs <;>
      refine ⟨rfl, rfl, rfl, rfl, rfl, ?_, rfl, rfl, rfl⟩ <;>
      first | rfl | (simp only [State.drift, ViolatedInfo.countViolations, State.sadd]; omega)

theorem unscoreVclass_scores (vv : VVertex) (s : State R) : ScoresNode s (unscoreVclass env vv s) := by
  unfold unscoreVclass
  split
  · exact .refl s
  · dsimp only
    split_ifs <;>
      refine ⟨rfl, rfl, rfl, rfl, rfl, ?_, rfl, rfl, rfl⟩ <;>
      first | rfl | (simp only [State.drift, ViolatedInfo.countViolations, State.ssub]; omega)

omit [Double R] in
theorem pclassSetMember_ends (pv : PVertex) (p : PnodeState) (m : String × List PVertex) :
    Ends Fault.Unmarked (pclassSetMember env pv p m) fun _ => True := by
  unfold pclassSetMember
  split_ifs
  · split
    · exact unmarked_nullPointer
    · split_ifs <;> trivial
  · split
    · exact unmarked_nullPointer
    · trivial

theorem pclassUnsetMember_ends (pv : PVertex) (p : PnodeState) (m : String × List PVertex) :
    Ends Fault.Unmarked (pclassUnsetMember pv p m) fun _ => True := by
  unfold pclassUnsetMember
  split_ifs
  · split
    · exact unmarked_nullPointer
    · split_ifs
      · trivial
      · trivial
      · exact unmarked_assertion
  · trivial

omit [Double R] in
theorem setOwnDisabled_scores (pv : PVertex) (disabled : Bool) (s : State R) :
    ScoresNode s (setOwnDisabled env pv disabled s) := by
  unfold setOwnDisabled
  split
  · exact scoresNode_setPclass s _ _
  · exact .refl s

omit [Double R] in
theorem pclassSet_scores (pv : PVertex) (c : Nat) (s : State R) :
    Ends Fault.Unmarked (pclassSet env pv c s) (ScoresNode s) := by
  unfold pclassSet
  refine (Ends.mapM fun m _ => pclassSetMember_ends env pv _ m).bind fun members _ => ?_
  have hown (c : Prop) [Decidable c] := ScoresNode.ite (c := c)
    (fun _ => setOwnDisabled_scores env pv false s) fun _ => .refl s
  exact (hown _).trans (scoresNode_setPclass _ _ _)

omit [Double R] in
theorem pclassUnset_scores (pv : PVertex) (c : Nat) (s : State R) :
    Ends Fault.Unmarked (pclassUnset env pv c s) (ScoresNode s) := by
  unfold pclassUnset
  refine (Ends.mapM fun m _ => pclassUnsetMember_ends pv _ m).bind fun members _ => ?_
  have hown (c : Prop) [Decidable c] := ScoresNode.ite (c := c)
    (fun _ => setOwnDisabled_scores env pv true s) fun _ => .refl s
  exact (hown _).trans (scoresNode_setPclass _ _ _)

omit [Double R] in
theorem usePclass_scores (pv : PVertex) (tr : TypeRecord) (s : State R) :
    Ends Fault.Unmarked (usePclass env pv tr s) (ScoresNode s) := by
  unfold usePclass
  split
  · split_ifs
    · exact pclassSet_scores env pv _ s
    · exact ScoresNode.refl s
  · exact ScoresNode.refl s

omit [Double R] in
theorem releasePclass_scores (pv : PVertex) (tr : TypeRecord) (s : State R) :
    Ends Fault.Unmarked (releasePclass env pv tr s) (ScoresNode s) := by
  unfold releasePclass
  split
  · split_ifs
    · exact pclassUnset_scores env pv _ s
    · exact ScoresNode.refl s
  · exact ScoresNode.refl s

omit [Double R] in
theorem recordOf_ends (vv : VVertex) (pv : PVertex) (s : State R) :
    Ends Fault.Unmarked (recordOf env vv pv s) fun r => recordOf env vv pv s = .ok r := by
  unfold recordOf
  dsimp only
  split
  · rfl
  · split
    · exact unmarked_nullPointer
    · split
      · exact unmarked_nullPointer
      · rfl

end Emulab.Assign
