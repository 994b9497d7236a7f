import Emulab.Assign.Counters
import Emulab.Assign.PlinkCharges
import Emulab.Lib.Machine

/-! # The cost of plinks, over all histories

  Vlinks are scored on plinks and unscored in any order. Beside the state, the
  history keeps for each plink who uses it, and what all calls together have
  changed of the score and of the violations on its account.
-/

namespace Emulab.Assign

open Machine Function

/-! ## Section 1: Histories -/

inductive LinkCall where
  | scoreLink (pe : PEdge) (ve : VEdge) (srcPnode dstPnode : PVertex)
  | unscoreLink (pe : PEdge) (ve : VEdge) (srcPnode dstPnode : PVertex)

/-- `unscore_link`, which does not look at the plink of a trivial link. -/
def unscoreLinkCall (env : Env ℚ) (pe : PEdge) (ve : VEdge) (srcPnode dstPnode : PVertex)
    (s : State ℚ) : Except Fault (State ℚ) :=
  if (s.vlink ve).linkInfo.typeUsed = .trivial then .ok (setUnmapped ve s)
  else unscoreLink env pe ve srcPnode dstPnode s

/-- A state, with what is known of the calls that have led to it. -/
structure LinkHistory where
  state : State ℚ
  users : PEdge → Multiset LinkUse
  contribution : PEdge → Charge

namespace LinkHistory

/-- Before the first call. -/
def start (s : State ℚ) : LinkHistory where
  state := s
  users := fun _ => 0
  contribution := fun _ => {}

/-- A call on a plink leads to a state. -/
def proceed (h : LinkHistory) (pe : PEdge) (users : Multiset LinkUse) (s : State ℚ) : LinkHistory where
  state := s
  users := update h.users pe users
  contribution := update h.contribution pe ((h.contribution pe).grow h.state s)

/-- One call. Only links that are not trivial are scored on a plink, and only users of a plink are
    unscored. -/
def step (env : Env ℚ) (h : LinkHistory) : LinkCall → Option LinkHistory
  | .scoreLink pe ve srcPnode dstPnode =>
    if (h.state.vlink ve).linkInfo.typeUsed ≠ .trivial then
      some (h.proceed pe (⟨ve, nodePair env srcPnode dstPnode⟩ ::ₘ h.users pe)
        (Assign.scoreLink env pe ve srcPnode dstPnode h.state))
    else
      none
  | .unscoreLink pe ve srcPnode dstPnode =>
    if ⟨ve, nodePair env srcPnode dstPnode⟩ ∈ h.users pe then
      match unscoreLinkCall env pe ve srcPnode dstPnode h.state with
      | .ok s => some (h.proceed pe ((h.users pe).erase ⟨ve, nodePair env srcPnode dstPnode⟩) s)
      | .error _ => none
    else
      none

/-- What a call has to meet on a plink: where the bandwidth is counted, the violations between the
    bandwidths before and after it are counted from both sides. -/
def Steady (env : Env ℚ) (pe : PEdge) (h : LinkHistory) : LinkCall → Prop
  | .scoreLink pe' ve _ _ => pe' = pe → (h.state.vlink ve).linkInfo.typeUsed ≠ .trivial →
      (env.pg.plink pe).isType ≠ .lan →
      Consistent (env.pg.plink pe).bandwidth (h.state.plink pe).bwUsed
        ((h.state.plink pe).bwUsed + (h.state.vlink ve).bandwidth)
  | .unscoreLink pe' ve srcPnode dstPnode => pe' = pe →
      ⟨ve, nodePair env srcPnode dstPnode⟩ ∈ h.users pe → (env.pg.plink pe).isType ≠ .lan →
      Consistent (env.pg.plink pe).bandwidth ((h.state.plink pe).bwUsed - (h.state.vlink ve).bandwidth)
        (h.state.plink pe).bwUsed

instance (env : Env ℚ) (pe : PEdge) (h : LinkHistory) : (call : LinkCall) →
    Decidable (h.Steady env pe call)
  | .scoreLink _ _ _ _ => inferInstanceAs (Decidable (_ = _ → _ → _ → _))
  | .unscoreLink _ _ _ _ => inferInstanceAs (Decidable (_ = _ → _ → _ → _))

/-! ## Section 2: What a call adds -/

end LinkHistory

section Grow

variable {env : Env ℚ} {pe : PEdge} {s s' : State ℚ} {u u' : PlinkUse} {score : ℚ} {bandwidth : Int}

theorem Charges.grow_iff (h : Charges s s'
      (u'.usersScore env pe - u.usersScore env pe + (u'.endsScore env pe - u.endsScore env pe) + score)
      (u'.users env pe - u.users env pe) (u'.ends env pe - u.ends env pe) bandwidth) :
    (u.charge env pe).grow s s' = u'.charge env pe ↔ u.bandwidthScore env pe + score = u'.bandwidthScore env pe ∧
        u.bandwidth env pe + bandwidth = u'.bandwidth env pe := by
  unfold Charge.grow PlinkUse.charge ViolatedInfo.zip
  rw [h.score, h.violated, h.vinfo]
  simp only [Charge.mk.injEq, ViolatedInfo.mk.injEq, sub_self, add_zero, and_true, true_and,
    add_sub_cancel_left, add_sub_cancel]
  constructor
  · intro heq
    obtain ⟨hscore, -, hbandwidth⟩ := heq
    exact ⟨by linarith, hbandwidth⟩
  · intro heq
    obtain ⟨hscore, hbandwidth⟩ := heq
    exact ⟨by linarith, by omega, hbandwidth⟩

theorem Charges.refund_iff (h : Charges s s'
      (-(u'.usersScore env pe - u.usersScore env pe + (u'.endsScore env pe - u.endsScore env pe) + score))
      (-(u'.users env pe - u.users env pe)) (-(u'.ends env pe - u.ends env pe)) (-bandwidth)) :
    (u'.charge env pe).grow s s' = u.charge env pe ↔ u.bandwidthScore env pe + score = u'.bandwidthScore env pe ∧
        u.bandwidth env pe + bandwidth = u'.bandwidth env pe := by
  unfold Charge.grow PlinkUse.charge ViolatedInfo.zip
  rw [h.score, h.violated, h.vinfo]
  simp only [Charge.mk.injEq, ViolatedInfo.mk.injEq, sub_self, add_zero, and_true, true_and,
    add_sub_cancel_left, neg_sub, add_sub_cancel]
  constructor
  · intro heq
    obtain ⟨hscore, -, hbandwidth⟩ := heq
    exact ⟨by linarith, by omega⟩
  · intro heq
    obtain ⟨hscore, hbandwidth⟩ := heq
    exact ⟨by linarith, by omega, by omega⟩

theorem crossed_iff (hmax : 0 < (env.pg.plink pe).bandwidth) :
    (u.bandwidthScore env pe + (if (env.pg.plink pe).isType ≠ .lan then
        crossedScore env (env.pg.plink pe).bandwidth u.bwUsed u'.bwUsed else 0) =
        u'.bandwidthScore env pe ∧
      u.bandwidth env pe + (if (env.pg.plink pe).isType ≠ .lan then
        crossed (env.pg.plink pe).bandwidth u.bwUsed u'.bwUsed else 0) = u'.bandwidth env pe) ↔
    ((env.pg.plink pe).isType ≠ .lan → Consistent (env.pg.plink pe).bandwidth u.bwUsed u'.bwUsed) := by
  unfold PlinkUse.bandwidthScore PlinkUse.bandwidth
  by_cases hlan : (env.pg.plink pe).isType ≠ .lan
  · simp only [if_pos hlan]
    rw [consistent_iff hmax]
    exact ⟨fun h _ => h.2, fun h => ⟨(h hlan).score env, h hlan⟩⟩
  · simp only [if_neg hlan]
    exact iff_of_true ⟨add_zero _, add_zero _⟩ fun h => absurd h hlan

end Grow

/-! ## Section 3: One call -/

namespace LinkHistory

/-- The invariant: every plink keeps what it should of its users. -/
structure Inv (env : Env ℚ) (bandwidth : VEdge → Int) (h : LinkHistory) : Prop where
  tracks : ∀ pe, Tracks env bandwidth pe (h.state.plink pe) (h.users pe)
  bandwidth : ∀ ve, (h.state.vlink ve).bandwidth = bandwidth ve
  nontrivial : ∀ pe, ∀ u ∈ h.users pe, (h.state.vlink u.ve).linkInfo.typeUsed ≠ .trivial

/-- A plink has contributed what its users should cost. -/
def Paid (env : Env ℚ) (bandwidth : VEdge → Int) (pe : PEdge) (h : LinkHistory) : Prop :=
  h.contribution pe = (plinkUse env bandwidth (h.users pe)).charge env pe

variable {env : Env ℚ} {bandwidth : VEdge → Int} {h : LinkHistory}

/-- A call on one plink keeps what is kept of the others. -/
theorem Inv.proceed (hinv : h.Inv env bandwidth) {pe : PEdge} {users : Multiset LinkUse}
    {s : State ℚ} (htracks : Tracks env bandwidth pe (s.plink pe) users)
    (hothers : ∀ pe', pe' ≠ pe → s.plink pe' = h.state.plink pe')
    (hbandwidth : ∀ ve, (s.vlink ve).bandwidth = (h.state.vlink ve).bandwidth)
    (hnontrivial : ∀ ve, (h.state.vlink ve).linkInfo.typeUsed ≠ .trivial →
      (s.vlink ve).linkInfo.typeUsed ≠ .trivial)
    (husers : ∀ u ∈ users, (h.state.vlink u.ve).linkInfo.typeUsed ≠ .trivial) :
    (h.proceed pe users s).Inv env bandwidth where
  tracks pe' := by
    unfold LinkHistory.proceed
    dsimp only
    by_cases heq : pe' = pe
    · subst heq
      rw [update_self]
      exact htracks
    · rw [update_of_ne heq, hothers pe' heq]
      exact hinv.tracks pe'
  bandwidth ve := (hbandwidth ve).trans (hinv.bandwidth ve)
  nontrivial pe' u hu := by
    unfold LinkHistory.proceed at hu ⊢
    dsimp only at hu ⊢
    apply hnontrivial
    by_cases heq : pe' = pe
    · subst heq
      rw [update_self] at hu
      exact husers u hu
    · rw [update_of_ne heq] at hu
      exact hinv.nontrivial pe' u hu

/-- What is scored: the invariant is kept, and the charge is right exactly if the bandwidths
    before and after are consistent. -/
theorem Inv.scoreLink (hinv : h.Inv env bandwidth) (pe : PEdge) {ve : VEdge}
    (srcPnode dstPnode : PVertex) (hve : (h.state.vlink ve).linkInfo.typeUsed ≠ .trivial) :
    let h' := h.proceed pe (⟨ve, nodePair env srcPnode dstPnode⟩ ::ₘ h.users pe)
      (Assign.scoreLink env pe ve srcPnode dstPnode h.state)
    h'.Inv env bandwidth ∧ (0 < (env.pg.plink pe).bandwidth → h.Paid env bandwidth pe →
        (h'.Paid env bandwidth pe ↔ ((env.pg.plink pe).isType ≠ .lan →
          Consistent (env.pg.plink pe).bandwidth (h.state.plink pe).bwUsed
            ((h.state.plink pe).bwUsed + (h.state.vlink ve).bandwidth)))) := by
  dsimp only
  obtain ⟨hvlink, ⟨htracks, hothers⟩, hcharges⟩ :=
    scoreLink_spec srcPnode dstPnode (hinv.tracks pe) (hinv.bandwidth ve)
  refine ⟨hinv.proceed htracks hothers (fun _ => by rw [hvlink]) (fun _ hu => by rwa [hvlink])
    fun u hu => ?_, fun hmax hpaid => ?_⟩
  · rcases Multiset.mem_cons.mp hu with rfl | hu
    · exact hve
    · exact hinv.nontrivial pe u hu
  · unfold Paid LinkHistory.proceed at *
    dsimp only at *
    rw [update_self, update_self, hpaid, hcharges.grow_iff, crossed_iff hmax]
    refine forall_congr' fun hlan => ?_
    rw [bwUsed_cons, ← (hinv.tracks pe).bwUsed hlan, hinv.bandwidth]

/-- What is unscored: no assertion fails, the invariant is kept, and the charge is right exactly if
    the bandwidths before and after are consistent. -/
theorem Inv.unscoreLink (hinv : h.Inv env bandwidth) {pe : PEdge} {ve : VEdge}
    {srcPnode dstPnode : PVertex} (hmem : ⟨ve, nodePair env srcPnode dstPnode⟩ ∈ h.users pe) :
    ∃ s, unscoreLinkCall env pe ve srcPnode dstPnode h.state = .ok s ∧
      let h' := h.proceed pe ((h.users pe).erase ⟨ve, nodePair env srcPnode dstPnode⟩) s
      h'.Inv env bandwidth ∧ (0 < (env.pg.plink pe).bandwidth → h.Paid env bandwidth pe →
          (h'.Paid env bandwidth pe ↔ ((env.pg.plink pe).isType ≠ .lan →
            Consistent (env.pg.plink pe).bandwidth ((h.state.plink pe).bwUsed - (h.state.vlink ve).bandwidth)
              (h.state.plink pe).bwUsed))) := by
  obtain ⟨rest, hrest⟩ := Multiset.exists_cons_of_mem hmem
  have htracks₀ := hinv.tracks pe
  rw [hrest] at htracks₀
  obtain ⟨s, hok, hvlink, ⟨htracks, hothers⟩, hcharges⟩ := unscoreLink_spec htracks₀ (hinv.bandwidth ve)
  refine ⟨setUnmapped ve s, ?_, ?_, ?_⟩
  · unfold unscoreLinkCall
    rw [if_neg (hinv.nontrivial pe _ hmem), hok]
  · rw [hrest, Multiset.erase_cons_head]
    refine hinv.proceed htracks hothers (fun ve' => ?_) (fun ve' hve' => ?_) fun u hu => ?_
    · unfold setUnmapped State.setVlink
      dsimp only
      by_cases heq : ve' = ve
      · rw [heq, update_self, hvlink]
      · rw [update_of_ne heq, hvlink]
    · unfold setUnmapped State.setVlink
      dsimp only
      by_cases heq : ve' = ve
      · rw [heq, update_self]
        exact LinkType.noConfusion
      · rwa [update_of_ne heq, hvlink]
    · refine hinv.nontrivial pe u ?_
      rw [hrest]
      exact Multiset.mem_cons_of_mem hu
  · intro hmax hpaid
    unfold Paid LinkHistory.proceed at *
    rw [hrest] at hpaid ⊢
    dsimp only at *
    have hgrow : (h.contribution pe).grow h.state (setUnmapped ve s) = (h.contribution pe).grow h.state s := rfl
    rw [update_self, update_self, Multiset.erase_cons_head, hgrow, hpaid, hcharges.refund_iff, crossed_iff hmax]
    refine forall_congr' fun hlan => ?_
    rw [htracks₀.bwUsed hlan, bwUsed_cons, hinv.bandwidth, add_sub_cancel_right]

/-- A call does not touch the account of another plink. -/
theorem paid_proceed_of_ne {pe pe' : PEdge} (hne : pe' ≠ pe) (users : Multiset LinkUse)
    (s : State ℚ) : (h.proceed pe users s).Paid env bandwidth pe' ↔ h.Paid env bandwidth pe' := by
  unfold Paid LinkHistory.proceed
  dsimp only
  rw [update_of_ne hne, update_of_ne hne]

/-- **Step lemma.** A call that is made keeps the invariant. From a right charge it leads to a right
    charge exactly if it is steady. -/
theorem Inv.step_spec (hinv : h.Inv env bandwidth) (call : LinkCall) :
    (h.step env call = none ∧ ∀ pe, h.Steady env pe call) ∨
      ∃ h', h.step env call = some h' ∧ h'.Inv env bandwidth ∧
        ∀ pe, 0 < (env.pg.plink pe).bandwidth → h.Paid env bandwidth pe →
          (h'.Paid env bandwidth pe ↔ h.Steady env pe call) := by
  cases call with
  | scoreLink pe ve srcPnode dstPnode =>
    by_cases hve : (h.state.vlink ve).linkInfo.typeUsed ≠ .trivial
    · obtain ⟨hinv', hpaid'⟩ := hinv.scoreLink pe srcPnode dstPnode hve
      refine Or.inr ⟨_, if_pos hve, hinv', fun pe' hmax hpaid => ?_⟩
      by_cases heq : pe = pe'
      · subst heq
        rw [hpaid' hmax hpaid]
        exact ⟨fun hcons _ _ => hcons, fun hsteady => hsteady rfl hve⟩
      · rw [paid_proceed_of_ne (Ne.symm heq)]
        exact iff_of_true hpaid fun hsame => absurd hsame heq
    · exact Or.inl ⟨if_neg hve, fun _ _ hve' => absurd hve' hve⟩
  | unscoreLink pe ve srcPnode dstPnode =>
    by_cases hmem : ⟨ve, nodePair env srcPnode dstPnode⟩ ∈ h.users pe
    · obtain ⟨s, hok, hinv', hpaid'⟩ := hinv.unscoreLink hmem
      refine Or.inr ⟨_, ?_, hinv', fun pe' hmax hpaid => ?_⟩
      · simp only [LinkHistory.step, if_pos hmem, hok]
      · by_cases heq : pe = pe'
        · subst heq
          rw [hpaid' hmax hpaid]
          exact ⟨fun hcons _ _ => hcons, fun hsteady => hsteady rfl hmem⟩
        · rw [paid_proceed_of_ne (Ne.symm heq)]
          exact iff_of_true hpaid fun hsame => absurd hsame heq
    · refine Or.inl ⟨if_neg hmem, fun pe' hsame hmem' => ?_⟩
      exact absurd (hsame ▸ hmem') hmem

/-! ## Section 4: Every history -/

/-- A plink that nobody uses. -/
def unused : PlinkState :=
  { bwUsed := 0, emulated := 0, nonemulated := 0, currentEndpoints := ("", ""), currentCount := 0,
    vedgeCounts := [] }

theorem inv_start {s : State ℚ} (hunused : ∀ pe, s.plink pe = unused) :
    (start s).Inv env fun ve => (s.vlink ve).bandwidth where
  tracks pe := by
    show Tracks env _ pe (s.plink pe) 0
    rw [hunused]
    exact ⟨fun _ => rfl, fun _ => rfl, fun _ => ⟨Tally.of_nil, rfl, rfl⟩, fun _ => rfl⟩
  bandwidth _ := rfl
  nontrivial pe u hu := absurd hu (Multiset.notMem_zero u)

theorem charge_zero (env : Env ℚ) (bandwidth : VEdge → Int) {pe : PEdge}
    (hmax : 0 < (env.pg.plink pe).bandwidth) : (plinkUse env bandwidth 0).charge env pe = {} := by
  have hover : ¬(env.pg.plink pe).bandwidth < 0 := by omega
  have huse : plinkUse env bandwidth 0 = ⟨0, 0, 0, 0⟩ := rfl
  rw [huse]
  simp [PlinkUse.charge, PlinkUse.users, PlinkUse.ends, PlinkUse.bandwidth, PlinkUse.usersScore,
    PlinkUse.endsScore, PlinkUse.bandwidthScore, userViolations, userScore, bandwidthViolations,
    bandwidthScore, overBw, hover]

def slowLink : Env ℚ :=
  { twoNodes with
    vg :=
      { twoNodes.vg with
        edges := [1, 2]
        vlink := fun e => { twoNodes.vg.vlink e with bandwidth := if e = 1 then 1 else 4 }
        edges_nodup := by decide
        src_mem := by decide
        dst_mem := by decide }
    pg :=
      { twoNodes.pg with
        plink := fun e => { twoNodes.pg.plink e with bandwidth := 1 }
        slink_interswitch := by simp [twoNodes] } }

/-- Both are scored, and unscored in the same order. -/
def slowCalls : List LinkCall :=
  [.scoreLink 1 1 1 2, .scoreLink 1 2 1 2, .unscoreLink 1 1 1 2, .unscoreLink 1 2 1 2]

end LinkHistory

end Emulab.Assign
