import Emulab.Assign.Resolve

/-! # What scoring a link leaves alone

  The routines that score links touch neither the assignments of vnodes nor
  the types and loads of pnodes, and every violation that they count is counted
  in `violated` and in one detailed counter.
-/

namespace Emulab.Assign

open Outcome List

variable {R : Type}

/-! ## Section 1: Steps that score links -/

/-- `violated`, less what the detailed counters account for. -/
def State.drift (s : State R) : Int := s.violated - s.vinfo.countViolations

/-- A step that changes nothing but the score, the use of links and the state of
    the vlink `ve`, and there not whether it is connected. -/
structure ScoresLink (ve : VEdge) (s s' : State R) : Prop where
  vnode : s'.vnode = s.vnode
  vlink_of_ne : ∀ e, e ≠ ve → s'.vlink e = s.vlink e
  connected : (s'.vlink ve).noConnection = (s.vlink ve).noConnection
  pnode : s'.pnode = s.pnode
  pclass : s'.pclass = s.pclass
  vclass : s'.vclass = s.vclass
  ptypeUsers : s'.ptypeUsers = s.ptypeUsers
  inUseGlobally : s'.inUseGlobally = s.inUseGlobally
  usedLocalCapacity : s'.usedLocalCapacity = s.usedLocalCapacity
  drift : s'.drift = s.drift
  unassigned : s'.vinfo.unassigned = s.vinfo.unassigned
  noConnection : s'.vinfo.noConnection = s.vinfo.noConnection

theorem ScoresLink.refl (ve : VEdge) (s : State R) : ScoresLink ve s s :=
  ⟨rfl, fun _ _ => rfl, rfl, rfl, rfl, rfl, rfl, rfl, rfl, rfl, rfl, rfl⟩

theorem ScoresLink.trans {ve : VEdge} {s₁ s₂ s₃ : State R} (h₁ : ScoresLink ve s₁ s₂)
    (h₂ : ScoresLink ve s₂ s₃) : ScoresLink ve s₁ s₃ where
  vnode := h₂.vnode.trans h₁.vnode
  vlink_of_ne e he := (h₂.vlink_of_ne e he).trans (h₁.vlink_of_ne e he)
  connected := h₂.connected.trans h₁.connected
  pnode := h₂.pnode.trans h₁.pnode
  pclass := h₂.pclass.trans h₁.pclass
  vclass := h₂.vclass.trans h₁.vclass
  ptypeUsers := h₂.ptypeUsers.trans h₁.ptypeUsers
  inUseGlobally := h₂.inUseGlobally.trans h₁.inUseGlobally
  usedLocalCapacity := h₂.usedLocalCapacity.trans h₁.usedLocalCapacity
  drift := h₂.drift.trans h₁.drift
  unassigned := h₂.unassigned.trans h₁.unassigned
  noConnection := h₂.noConnection.trans h₁.noConnection

/-- A step that does not change any vlink either. -/
def ScoresUse (s s' : State R) : Prop :=
  s'.vlink = s.vlink ∧ ∀ ve, ScoresLink ve s s'

theorem ScoresUse.refl (s : State R) : ScoresUse s s := ⟨rfl, fun ve => .refl ve s⟩

theorem ScoresUse.trans {s₁ s₂ s₃ : State R} (h₁ : ScoresUse s₁ s₂) (h₂ : ScoresUse s₂ s₃) : ScoresUse s₁ s₃ :=
  ⟨h₂.1.trans h₁.1, fun ve => (h₁.2 ve).trans (h₂.2 ve)⟩

/-- A step is of the kind if the vlinks and the parts of nodes are the same, and
    violations are counted twice. -/
theorem ScoresUse.intro {s s' : State R} (h : s' = { s with
      score := s'.score, violated := s'.violated, vinfo := s'.vinfo, vnodeLinks := s'.vnodeLinks,
      pnodeLinks := s'.pnodeLinks, plink := s'.plink })
    (hunassigned : s'.vinfo.unassigned = s.vinfo.unassigned)
    (hno : s'.vinfo.noConnection = s.vinfo.noConnection) (hdrift : s'.drift = s.drift) :
    ScoresUse s s' := by
  have hvlink : s'.vlink = s.vlink := by rw [h]
  refine ⟨hvlink, fun ve => ⟨?_, fun e _ => by rw [hvlink], by rw [hvlink], ?_, ?_, ?_, ?_, ?_, ?_,
    hdrift, hunassigned, hno⟩⟩ <;> rw [h]

theorem ScoresUse.ite {c : Prop} [Decidable c] {s s₁ s₂ : State R} (h₁ : c → ScoresUse s s₁)
    (h₂ : ¬c → ScoresUse s s₂) : ScoresUse s (if c then s₁ else s₂) := by
  split
  · exact h₁ ‹_›
  · exact h₂ ‹_›

theorem ScoresUse.foldl {α : Type} {f : State R → α → State R}
    (h : ∀ s a, ScoresUse s (f s a)) (l : List α) (s : State R) : ScoresUse s (l.foldl f s) := by
  induction l generalizing s with
  | nil => exact .refl s
  | cons a l ih => exact (h s a).trans (ih (f s a))

variable [Double R] (env : Env R)

theorem scoresUse_sadd (s : State R) (amount : R) : ScoresUse s (s.sadd amount) :=
  .intro rfl rfl rfl rfl

theorem scoresUse_ssub (s : State R) (amount : R) : ScoresUse s (s.ssub amount) :=
  .intro rfl rfl rfl rfl

/-! ## Section 2: One plink -/

theorem scoreLinkUsers_scores (pe : PEdge) (ve : VEdge) (s : State R) :
    ScoresUse s (scoreLinkUsers env pe ve s) := by
  unfold scoreLinkUsers
  dsimp only [State.sadd, State.setPlink]
  split_ifs <;> refine .intro rfl rfl rfl ?_ <;>
    first | rfl | (simp only [State.drift, ViolatedInfo.countViolations]; omega)

theorem scoreLinkEndpoints_scores (pe : PEdge) (srcPnode dstPnode : PVertex)
    (s : State R) : ScoresUse s (scoreLinkEndpoints env pe srcPnode dstPnode s) := by
  unfold scoreLinkEndpoints
  dsimp only [State.sadd, State.setPlink]
  split_ifs <;> refine .intro rfl rfl rfl ?_ <;>
    first | rfl | (simp only [State.drift, ViolatedInfo.countViolations]; omega)

theorem scoreLinkBandwidth_scores (pe : PEdge) (ve : VEdge) (s : State R) :
    ScoresUse s (scoreLinkBandwidth env pe ve s) := by
  unfold scoreLinkBandwidth
  dsimp only [State.sadd, State.setPlink]
  split_ifs <;> refine .intro rfl rfl rfl ?_ <;>
    first | rfl | (simp only [State.drift, ViolatedInfo.countViolations]; omega)

theorem scoreLink_scores (pe : PEdge) (ve : VEdge) (srcPnode dstPnode : PVertex)
    (s : State R) : ScoresUse s (scoreLink env pe ve srcPnode dstPnode s) := by
  unfold scoreLink
  have husers := ScoresUse.ite (c := (env.pg.plink pe).isType = .normal)
    (fun _ => scoreLinkUsers_scores env pe ve s) fun _ => .refl s
  refine husers.trans ?_
  have hends (s : State R) := ScoresUse.ite (c := (env.pg.plink pe).fixends = true)
    (fun _ => scoreLinkEndpoints_scores env pe srcPnode dstPnode s) fun _ => .refl s
  refine (hends _).trans ?_
  exact .ite (fun _ => scoreLinkBandwidth_scores env pe ve _) fun _ => .refl _

theorem unscoreLinkUsers_scores (pe : PEdge) (ve : VEdge) (s : State R) :
    ScoresUse s (unscoreLinkUsers env pe ve s) := by
  unfold unscoreLinkUsers
  dsimp only [State.ssub, State.setPlink]
  split_ifs <;> refine .intro rfl rfl rfl ?_ <;>
    first | rfl | (simp only [State.drift, ViolatedInfo.countViolations]; omega)

theorem unscoreLinkBandwidth_scores (pe : PEdge) (ve : VEdge) (s : State R) :
    ScoresUse s (unscoreLinkBandwidth env pe ve s) := by
  unfold unscoreLinkBandwidth
  dsimp only [State.ssub, State.setPlink]
  split_ifs <;> refine .intro rfl rfl rfl ?_ <;>
    first | rfl | (simp only [State.drift, ViolatedInfo.countViolations]; omega)

/-- The faults that are not an assertion about whether a vlink is connected. -/
def Fault.Unmarked (e : Fault) : Prop := e ≠ .markVlinkUnassigned ∧ e ≠ .markVlinkAssigned

theorem unscoreLinkEndpoints_scores (pe : PEdge) (srcPnode dstPnode : PVertex) (s : State R) :
    Ends Fault.Unmarked (unscoreLinkEndpoints env pe srcPnode dstPnode s) (ScoresUse s) := by
  unfold unscoreLinkEndpoints
  dsimp only [State.ssub, State.setPlink]
  by_cases hcount : 0 < vedgeCount (s.plink pe).vedgeCounts (nodePair env srcPnode dstPnode)
  · rw [if_pos hcount]
    split_ifs <;> refine .intro rfl rfl rfl ?_ <;>
      first | rfl | (simp only [State.drift, ViolatedInfo.countViolations]; omega)
  · rw [if_neg hcount]
    exact ⟨by decide, by decide⟩

omit [Double R] in
theorem scoresLink_setVlink (ve : VEdge) (s : State R) (f : VlinkState → VlinkState)
    (hf : (f (s.vlink ve)).noConnection = (s.vlink ve).noConnection) : ScoresLink ve s (s.setVlink ve f) where
  vnode := rfl
  vlink_of_ne e he := Function.update_of_ne he _ _
  connected := by simpa [State.setVlink] using hf
  pnode := rfl
  pclass := rfl
  vclass := rfl
  ptypeUsers := rfl
  inUseGlobally := rfl
  usedLocalCapacity := rfl
  drift := rfl
  unassigned := rfl
  noConnection := rfl

theorem unscoreLink_scores (pe : PEdge) (ve : VEdge) (srcPnode dstPnode : PVertex)
    (s : State R) : Ends Fault.Unmarked (unscoreLink env pe ve srcPnode dstPnode s) (ScoresLink ve s) := by
  unfold unscoreLink
  dsimp only
  have husers := ScoresUse.ite (c := (env.pg.plink pe).isType = .normal)
    (fun _ => unscoreLinkUsers_scores env pe ve s) fun _ => .refl s
  generalize (if (env.pg.plink pe).isType = .normal then unscoreLinkUsers env pe ve s else s) = s₁ at husers ⊢
  have hends : Ends Fault.Unmarked (if (env.pg.plink pe).fixends then
      unscoreLinkEndpoints env pe srcPnode dstPnode s₁ else .ok s₁) (ScoresUse s₁) := by
    split_ifs
    · exact unscoreLinkEndpoints_scores env pe srcPnode dstPnode s₁
    · exact ScoresUse.refl s₁
  refine hends.bind fun s₂ hs₂ => ?_
  have hband := ScoresUse.ite (c := (env.pg.plink pe).isType ≠ .lan)
    (fun _ => unscoreLinkBandwidth_scores env pe ve s₂) fun _ => .refl s₂
  exact (((husers.trans hs₂).trans hband).2 ve).trans (scoresLink_setVlink ve _ _ rfl)

/-! ## Section 3: Switches, trivial links and mixes -/

theorem useSwitch_scores (bandwidth : Int) (s : State R) (sw : PVertex) :
    ScoresUse s (useSwitch env bandwidth s sw) := by
  unfold useSwitch
  dsimp only [State.sadd, State.setPnodeLinks]
  split_ifs <;> exact .intro rfl rfl rfl rfl

theorem releaseSwitch_scores (bandwidth : Int) (s : State R) (sw : PVertex) :
    ScoresUse s (releaseSwitch env bandwidth s sw) := by
  unfold releaseSwitch
  dsimp only [State.ssub, State.setPnodeLinks]
  split_ifs <;> exact .intro rfl rfl rfl rfl

omit [Double R] in
theorem addNontrivialBw_scores (srcPnode dstPnode : PVertex) (bandwidth : Int) (s : State R) :
    ScoresUse s (addNontrivialBw srcPnode dstPnode bandwidth s) :=
  .intro rfl rfl rfl rfl

theorem scoreTrivialBw_scores (ve : VEdge) (srcPnode dstPnode : PVertex)
    (s : State R) : ScoresUse s (scoreTrivialBw env ve srcPnode dstPnode s) := by
  unfold scoreTrivialBw
  dsimp only [State.sadd, State.setPnodeLinks]
  split_ifs <;> refine .intro rfl rfl rfl ?_ <;>
    first | rfl | (simp only [State.drift, ViolatedInfo.countViolations]; omega)

theorem unscoreTrivialBw_scores (ve : VEdge) (srcPnode : PVertex) (s : State R) :
    ScoresUse s (unscoreTrivialBw env ve srcPnode s) := by
  unfold unscoreTrivialBw
  dsimp only [State.ssub, State.setPnodeLinks]
  split_ifs <;> refine .intro rfl rfl rfl ?_ <;>
    first | rfl | (simp only [State.drift, ViolatedInfo.countViolations]; omega)

omit [Double R] in
theorem setVnodeLinks_scores (s : State R) (v : VVertex) (f : VnodeLinks → VnodeLinks) :
    ScoresUse s (s.setVnodeLinks v f) :=
  .intro rfl rfl rfl rfl

theorem addMix_scores (v : VVertex) (links others : Int) (s : State R) :
    ScoresUse s (addMix env v links others s) := by
  unfold addMix
  dsimp only [State.sadd]
  split_ifs
  · refine .intro rfl rfl rfl ?_
    simp only [State.drift, ViolatedInfo.countViolations]
    omega
  · exact .refl s

theorem removeMix_scores (v : VVertex) (links others : Int) (s : State R) :
    ScoresUse s (removeMix env v links others s) := by
  unfold removeMix
  dsimp only [State.ssub]
  split_ifs
  · refine .intro rfl rfl rfl ?_
    simp only [State.drift, ViolatedInfo.countViolations]
    omega
  · exact .refl s

theorem scoreMix_scores (typeUsed : LinkType) (srcVnode dstVnode : VVertex)
    (s : State R) : ScoresUse s (scoreMix env typeUsed srcVnode dstVnode s) := by
  unfold scoreMix
  split_ifs <;>
    exact (((setVnodeLinks_scores _ _ _).trans (setVnodeLinks_scores _ _ _)).trans
      (addMix_scores _ _ _ _ _)).trans (addMix_scores _ _ _ _ _)

theorem unscoreMix_scores (typeUsed : LinkType) (srcVnode dstVnode : VVertex)
    (s : State R) : ScoresUse s (unscoreMix env typeUsed srcVnode dstVnode s) := by
  unfold unscoreMix
  split_ifs
  · exact (((setVnodeLinks_scores _ _ _).trans (setVnodeLinks_scores _ _ _)).trans
      (removeMix_scores _ _ _ _ _)).trans (removeMix_scores _ _ _ _ _)
  · exact (((setVnodeLinks_scores _ _ _).trans (setVnodeLinks_scores _ _ _)).trans
      (removeMix_scores _ _ _ _ _)).trans (removeMix_scores _ _ _ _ _)
  · exact .refl s

theorem saddTimes_scores (amount : R) (n : Nat) (s : State R) : ScoresUse s (saddTimes amount n s) := by
  induction n generalizing s with
  | zero => exact .refl s
  | succ n ih => exact (scoresUse_sadd s amount).trans (ih _)

theorem ssubTimes_scores (amount : R) (n : Nat) (s : State R) : ScoresUse s (ssubTimes amount n s) := by
  induction n generalizing s with
  | zero => exact .refl s
  | succ n ih => exact (scoresUse_ssub s amount).trans (ih _)

/-! ## Section 4: A vlink -/

omit [Double R] in
theorem ScoresUse.link {s s' : State R} (h : ScoresUse s s') (ve : VEdge) :
    ScoresLink ve s s' ∧ (s'.vlink ve).linkInfo = (s.vlink ve).linkInfo :=
  ⟨h.2 ve, by rw [h.1]⟩

theorem unmarked_undefined : Fault.undefined.Unmarked := ⟨by decide, by decide⟩

theorem unmarked_exitFatal : Fault.exitFatal.Unmarked := ⟨by decide, by decide⟩

theorem unmarked_assertion : Fault.assertion.Unmarked := ⟨by decide, by decide⟩

theorem unmarked_nullPointer : Fault.nullPointer.Unmarked := ⟨by decide, by decide⟩

theorem unmarked_endless : Fault.endless.Unmarked := ⟨by decide, by decide⟩

theorem ends_front {α : Type} (l : List α) : Ends Fault.Unmarked (front l) (· ∈ l) := by
  cases l with
  | nil => exact unmarked_undefined
  | cons a l => exact mem_cons_self

theorem ends_back {α : Type} (l : List α) : Ends Fault.Unmarked (back l) (· ∈ l) :=
  (ends_front l.reverse).imp fun _ => mem_reverse.mp

omit [Double R] in
theorem adjustBandwidth_scores (ve : VEdge) (s : State R) :
    Ends Fault.Unmarked (adjustBandwidth env ve s) fun s' =>
      ScoresLink ve s s' ∧ (s'.vlink ve).linkInfo = (s.vlink ve).linkInfo := by
  unfold adjustBandwidth
  dsimp only
  split_ifs
  · refine (ends_front _).bind fun first _ => ?_
    refine (ends_back _).bind fun last _ => ?_
    exact ⟨scoresLink_setVlink ve s _ rfl, by simp [State.setVlink]⟩
  · exact ⟨by decide, by decide⟩
  · exact ⟨.refl ve s, rfl⟩

theorem scoreMapping_scores (ve : VEdge) (srcPnode dstPnode : PVertex) (s : State R) :
    Ends Fault.Unmarked (scoreMapping env ve srcPnode dstPnode s) (ScoresUse s) := by
  unfold scoreMapping
  dsimp only
  split
  · -- direct
    refine (ends_front _).bind fun pe _ => ?_
    exact ((scoresUse_sadd s _).trans (addNontrivialBw_scores _ _ _ _)).trans
      (scoreLink_scores env pe ve srcPnode dstPnode _)
  · -- intraswitch
    refine (ends_front _).bind fun first _ => ?_
    refine (ends_back _).bind fun last _ => ?_
    refine (ends_front _).bind fun sw _ => ?_
    exact ((((scoresUse_sadd s _).trans (addNontrivialBw_scores _ _ _ _)).trans
      (scoreLink_scores env first ve srcPnode dstPnode _)).trans
      (scoreLink_scores env last ve srcPnode dstPnode _)).trans (useSwitch_scores env _ _ sw)
  · -- interswitch
    exact (((addNontrivialBw_scores _ _ _ s).trans (ScoresUse.foldl
      (fun s pe => scoreLink_scores env pe ve srcPnode dstPnode s) _ _)).trans
      (saddTimes_scores _ _ _)).trans (ScoresUse.foldl (useSwitch_scores env _) _ _)
  · exact scoreTrivialBw_scores env ve srcPnode dstPnode s
  · exact unmarked_exitFatal
  · exact unmarked_exitFatal

theorem scoreLinkInfo_scores (ve : VEdge) (srcPnode dstPnode : PVertex)
    (srcVnode dstVnode : VVertex) (s : State R) :
    Ends Fault.Unmarked (scoreLinkInfo env ve srcPnode dstPnode srcVnode dstVnode s) fun s' =>
      ScoresLink ve s s' ∧ (s'.vlink ve).linkInfo = (s.vlink ve).linkInfo := by
  unfold scoreLinkInfo
  refine (adjustBandwidth_scores env ve s).bind fun s₁ h₁ => ?_
  refine (scoreMapping_scores env ve srcPnode dstPnode s₁).bind fun s₂ h₂ => ?_
  have h₃ := (h₂.trans (scoreMix_scores env (s₂.vlink ve).linkInfo.typeUsed srcVnode dstVnode s₂)).link ve
  exact ⟨h₁.1.trans h₃.1, h₃.2.trans h₁.2⟩

theorem unscorePath_scores (ve : VEdge) (srcPnode dstPnode : PVertex) (path : List PEdge) (s : State R) :
    Ends Fault.Unmarked (unscorePath env ve srcPnode dstPnode path s) (ScoresLink ve s) := by
  induction path generalizing s with
  | nil => exact ScoresLink.refl ve s
  | cons pe path ih =>
    refine (unscoreLink_scores env pe ve srcPnode dstPnode s).bind fun s₁ h₁ => ?_
    exact (ih s₁).imp fun s₂ h₂ => h₁.trans h₂

theorem unscoreMapping_scores (ve : VEdge) (srcPnode dstPnode : PVertex) (s : State R) :
    Ends Fault.Unmarked (unscoreMapping env ve srcPnode dstPnode s) (ScoresLink ve s) := by
  unfold unscoreMapping
  dsimp only
  split
  · -- direct
    refine (ends_front _).bind fun pe _ => ?_
    refine (unscoreLink_scores env pe ve srcPnode dstPnode _).bind fun s₁ h₁ => ?_
    exact ((((addNontrivialBw_scores _ _ _ s).trans (scoresUse_ssub _ _)).2 ve).trans h₁).trans
      (scoresLink_setVlink ve _ _ rfl)
  · -- interswitch
    refine (unscorePath_scores env ve srcPnode dstPnode _ _).bind fun s₁ h₁ => ?_
    have hswitches := (ssubTimes_scores env.score.interswitchLink
      ((s.vlink ve).linkInfo.plinks.length - 2) s₁).trans
      (ScoresUse.foldl (releaseSwitch_scores env (s.vlink ve).bandwidth) (s.vlink ve).linkInfo.switches _)
    exact ((((addNontrivialBw_scores _ _ _ s).2 ve).trans h₁).trans (hswitches.2 ve)).trans
      (scoresLink_setVlink ve _ _ rfl)
  · -- intraswitch
    refine (ends_front _).bind fun first _ => ?_
    refine (unscoreLink_scores env first ve srcPnode dstPnode _).bind fun s₁ h₁ => ?_
    refine (ends_back _).bind fun last _ => ?_
    refine (unscoreLink_scores env last ve srcPnode dstPnode _).bind fun s₂ h₂ => ?_
    refine (ends_front _).bind fun sw _ => ?_
    exact ((((((addNontrivialBw_scores _ _ _ s).trans (scoresUse_ssub _ _)).2 ve).trans
      h₁).trans h₂).trans ((releaseSwitch_scores env _ _ sw).2 ve)).trans
      (scoresLink_setVlink ve _ _ rfl)
  · -- trivial
    exact ((unscoreTrivialBw_scores env ve srcPnode s).2 ve).trans (scoresLink_setVlink ve _ _ rfl)
  · exact ScoresLink.refl ve s
  · exact ScoresLink.refl ve s

/-- Unscoring a vlink changes no other vlink. -/
theorem unscoreLinkInfo_scores (ve : VEdge) (srcPnode dstPnode : PVertex)
    (srcVnode dstVnode : VVertex) (s : State R) :
    Ends Fault.Unmarked (unscoreLinkInfo env ve srcPnode dstPnode srcVnode dstVnode s) (ScoresLink ve s) := by
  unfold unscoreLinkInfo
  have hmix := (unscoreMix_scores env (s.vlink ve).linkInfo.typeUsed srcVnode dstVnode s).2 ve
  refine (unscoreMapping_scores env ve srcPnode dstPnode _).bind fun s₁ h₁ => ?_
  split_ifs
  · exact (hmix.trans h₁).trans (scoresLink_setVlink ve _ _ rfl)
  · exact hmix.trans h₁

/-! ## Section 5: Resolutions -/

omit [Double R] in
theorem interswitchLoop_ends (pg : PGraph R) (srcPv : PVertex) (fuel : Nat) (current : PVertex)
    (path : List PEdge) (switches : List PVertex) :
    Ends Fault.Unmarked (interswitchLoop pg srcPv fuel current path switches) fun _ => True := by
  induction fuel generalizing current path switches with
  | zero =>
    unfold interswitchLoop
    split
    · trivial
    · exact unmarked_endless
  | succ fuel ih =>
    unfold interswitchLoop
    split
    · trivial
    · dsimp only
      split
      · exact unmarked_undefined
      · exact ih _ _ _

omit [Double R] in
theorem findInterswitchPath_ends (pg : PGraph R) (srcPv destPv : PVertex) :
    Ends Fault.Unmarked (findInterswitchPath pg srcPv destPv) fun found =>
      findInterswitchPath pg srcPv destPv = .ok found := by
  have hends : Ends Fault.Unmarked (findInterswitchPath pg srcPv destPv) fun _ => True := by
    unfold findInterswitchPath
    split
    · trivial
    · exact ((interswitchLoop_ends pg srcPv _ _ _ _).imp fun _ _ => trivial).map
  cases hfound : findInterswitchPath pg srcPv destPv with
  | ok found => rfl
  | error e => exact hends.of_error hfound

omit [Double R] in
theorem mem_intraswitchResolution {env : Env R} {s : State R} {pv destPv sw : PVertex} {ve : VEdge}
    {flipped : Bool} {info : LinkInfo} (h : info ∈ intraswitchResolution env s pv destPv ve flipped sw) :
    sw ∈ (env.pg.pnode destPv).switches ∧ (env.pg.pnode pv).isSwitch = false ∧
      (env.pg.pnode destPv).isSwitch = false ∧ ∃ first second,
        endLink env s (pv ≠ sw) pv sw ve (!flipped) flipped = some first ∧
        endLink env s (destPv ≠ sw) destPv sw ve flipped (!flipped) = some second ∧
        info = ⟨.intraswitch, inOrder flipped first second, [sw]⟩ := by
  unfold intraswitchResolution at h
  by_cases hdest : sw ∈ (env.pg.pnode destPv).switches
  · rw [if_neg (not_not.mpr hdest)] at h
    by_cases hswitch : ((env.pg.pnode pv).isSwitch || (env.pg.pnode destPv).isSwitch) = true
    · rw [if_pos hswitch] at h
      cases h
    · rw [if_neg hswitch] at h
      simp only [Bool.or_eq_true, not_or, Bool.not_eq_true] at hswitch
      cases hfirst : endLink env s (pv ≠ sw) pv sw ve (!flipped) flipped with
      | none =>
        rw [hfirst] at h
        cases h
      | some first =>
        cases hsecond : endLink env s (destPv ≠ sw) destPv sw ve flipped (!flipped) with
        | none =>
          rw [hfirst, hsecond] at h
          cases h
        | some second =>
          rw [hfirst, hsecond] at h
          exact ⟨hdest, hswitch.1, hswitch.2, first, second, rfl, rfl, mem_singleton.mp h⟩
  · rw [if_pos hdest] at h
    cases h

omit [Double R] in
theorem interswitchResolution_ends (s : State R) (pv destPv : PVertex) (ve : VEdge)
    (flipped : Bool) (src dst : PVertex) :
    Ends Fault.Unmarked (interswitchResolution env s pv destPv ve flipped src dst) fun infos =>
      ∀ info ∈ infos, src ≠ dst ∧ ∃ first second path switches,
        endLink env s (decide (pv ≠ src ∧ pv ≠ dst)) pv src ve (!flipped) flipped = some first ∧
        endLink env s (decide (destPv ≠ src ∧ destPv ≠ dst)) destPv dst ve flipped (!flipped) =
          some second ∧
        findInterswitchPath env.pg src dst = .ok (some (path, switches)) ∧
        info = ⟨.interswitch, if flipped then second ++ path ++ first else first ++ path ++ second, switches⟩ := by
  unfold interswitchResolution
  by_cases hsame : src = dst
  · rw [if_pos hsame]
    exact fun _ hinfo => nomatch hinfo
  · rw [if_neg hsame]
    dsimp only
    split
    · exact fun _ hinfo => nomatch hinfo
    · rename_i first hfirst
      split
      · exact fun _ hinfo => nomatch hinfo
      · rename_i second hsecond
        have hnative : Ends Fault.Unmarked (nativeInterface env ve first second)
            fun _ => True := by
          unfold nativeInterface
          split_ifs
          · exact unmarked_nullPointer
          · trivial
        refine hnative.bind fun _ _ => ?_
        refine (findInterswitchPath_ends env.pg src dst).bind fun found hpath => ?_
        cases found with
        | none => exact fun _ hinfo => nomatch hinfo
        | some found =>
          intro info hinfo
          exact ⟨hsame, first, second, found.1, found.2, hfirst, hsecond, hpath, mem_singleton.mp hinfo⟩

omit [Double R] in
theorem findLinkResolutions_forall {env : Env R} {s : State R} {pv destPv : PVertex} {ve : VEdge}
    {flipped : Bool} {P : LinkInfo → Prop}
    (hdirect : ∀ pe, findBestLink env s destPv pv ve true true = some pe → P ⟨.direct, [pe], []⟩)
    (hintra : ∀ sw ∈ (env.pg.pnode pv).switches,
      ∀ info ∈ intraswitchResolution env s pv destPv ve flipped sw, P info)
    (hinter : (env.vg.vlink ve).allowInterswitch = true →
      ∀ src ∈ (env.pg.pnode pv).switches, ∀ dst ∈ (env.pg.pnode destPv).switches,
      src ≠ dst → ∀ first second path switches,
        endLink env s (decide (pv ≠ src ∧ pv ≠ dst)) pv src ve (!flipped) flipped = some first →
        endLink env s (decide (destPv ≠ src ∧ destPv ≠ dst)) destPv dst ve flipped (!flipped) =
          some second →
        findInterswitchPath env.pg src dst = .ok (some (path, switches)) →
        P ⟨.interswitch, if flipped then second ++ path ++ first else first ++ path ++ second, switches⟩) :
    Ends Fault.Unmarked (findLinkResolutions env s pv destPv ve flipped) fun infos => ∀ info ∈ infos, P info := by
  have hdirects : ∀ info ∈ directResolutions env s pv destPv ve, P info := by
    unfold directResolutions
    split
    · intro info hinfo
      rw [mem_singleton.mp hinfo]
      exact hdirect _ ‹_›
    · exact fun _ hinfo => nomatch hinfo
  have hinters : Ends Fault.Unmarked (interswitchResolutions env s pv destPv ve flipped)
      fun infos => ∀ info ∈ infos, P info := by
    unfold interswitchResolutions
    split_ifs with hallowed
    · refine (Ends.mapM (P := fun infos => ∀ info ∈ infos, P info) ?_).bind fun found hfound => ?_
      · rintro ⟨src, dst⟩ hmem
        obtain ⟨hsrc, hdst⟩ := pair_mem_product.mp hmem
        refine (interswitchResolution_ends env s pv destPv ve flipped src dst).imp ?_
        intro infos hinfos info hinfo
        obtain ⟨hne, first, second, path, switches, hfirst, hsecond, hpath, rfl⟩ := hinfos info hinfo
        exact hinter hallowed src hsrc dst hdst hne first second path switches hfirst hsecond hpath
      · intro info hinfo
        obtain ⟨infos, hinfos, hinfo⟩ := mem_flatten.mp hinfo
        exact hfound infos hinfos info hinfo
    · exact fun _ hinfo => nomatch hinfo
  unfold findLinkResolutions
  refine hinters.bind fun infos hinfos => ?_
  intro info hinfo
  simp only [mem_append] at hinfo
  rcases hinfo with (hinfo | hinfo) | hinfo
  · exact hdirects info hinfo
  · obtain ⟨sw, hsw, hinfo⟩ := mem_flatMap.mp hinfo
    exact hintra sw hsw info hinfo
  · exact hinfos info hinfo

omit [Double R] in
/-- A vlink that is resolved is mapped. -/
theorem findLinkResolutions_types (s : State R) (pv destPv : PVertex) (ve : VEdge) (flipped : Bool) :
    Ends Fault.Unmarked (findLinkResolutions env s pv destPv ve flipped) fun infos =>
      ∀ info ∈ infos, info.typeUsed ≠ .unmapped ∧ info.typeUsed ≠ .trivial :=
  findLinkResolutions_forall (fun _ _ => by simp) (fun _ _ _ hinfo => by
      obtain ⟨_, _, _, _, _, _, _, rfl⟩ := mem_intraswitchResolution hinfo
      simp)
    fun _ _ _ _ _ _ _ _ _ _ _ _ _ => by simp

theorem chooseRandom_mem {infos : List LinkInfo} {choice : Nat} {info : LinkInfo}
    (h : chooseRandom infos choice = some info) : info ∈ infos := by
  induction infos generalizing choice with
  | nil => cases h
  | cons i infos ih =>
    unfold chooseRandom at h
    split at h
    · cases h
      exact mem_cons_self
    · exact mem_cons_of_mem _ (ih h)

theorem tryResolutions_scores (ve : VEdge) (ends : LinkEnds)
    (infos : List LinkInfo) (best : BestResolution R) (s : State R) :
    Ends Fault.Unmarked (tryResolutions env ve ends infos best s) fun r =>
      ScoresLink ve s r.2 ∧ (r.1.best = best.best ∨ ∃ info ∈ infos, r.1.best = some info) := by
  induction infos generalizing best s with
  | nil => exact ⟨.refl ve s, Or.inl rfl⟩
  | cons info infos ih =>
    unfold tryResolutions
    have hset := scoresLink_setVlink ve s (fun l => { l with linkInfo := info }) rfl
    refine (scoreLinkInfo_scores env ve _ _ _ _ _).bind fun s₁ h₁ => ?_
    refine (unscoreLinkInfo_scores env ve _ _ _ _ _).bind fun s₂ h₂ => ?_
    refine (ih _ s₂).imp ?_
    rintro ⟨best', s₃⟩ ⟨h₃, hbest⟩
    refine ⟨((hset.trans h₁.1).trans h₂).trans h₃, ?_⟩
    rcases hbest with hbest | ⟨info', hinfo', hbest⟩
    · split_ifs at hbest
      · exact Or.inr ⟨info, mem_cons_self, hbest⟩
      · exact Or.inl hbest
    · exact Or.inr ⟨info', mem_cons_of_mem _ hinfo', hbest⟩

theorem chooseResolution_scores (ve : VEdge) (ends : LinkEnds)
    (deterministic : Bool) (random : Nat) (infos : List LinkInfo) (s : State R) :
    Ends Fault.Unmarked (chooseResolution env ve ends deterministic random infos s) fun r =>
      ScoresLink ve s r.2 ∧ r.1 ∈ infos := by
  unfold chooseResolution
  split_ifs
  · cases hchoice : chooseRandom infos (random % totalWeight infos) with
    | none => exact unmarked_undefined
    | some info => exact ⟨.refl ve s, chooseRandom_mem hchoice⟩
  · refine (tryResolutions_scores env ve ends infos _ s).bind ?_
    rintro ⟨best, s'⟩ ⟨hs', hbest⟩
    dsimp only
    cases hb : best.best with
    | none => exact unmarked_undefined
    | some info =>
      refine ⟨hs', ?_⟩
      rcases hbest with hnone | ⟨info', hinfo', hsome⟩
      · rw [hb] at hnone
        cases hnone
      · rw [hb] at hsome
        cases hsome
        exact hinfo'

end Emulab.Assign
