import Emulab.Assign.LinkFrames
import Emulab.Lib.Tally

/-! # What the users of a plink cost

  `score_link` adds to the score and to the violations what one more user of a
  plink costs, and `unscore_link` subtracts it. What has been added and not
  subtracted should depend on the users of the plink alone, and not on the
  order in which they came and others left.
-/

namespace Emulab.Assign

open Function

/-! ## Section 1: Charges -/

/-- Two records, counter by counter. -/
def ViolatedInfo.zip (f : Int → Int → Int) (a b : ViolatedInfo) : ViolatedInfo where
  unassigned := f a.unassigned b.unassigned
  pnodeLoad := f a.pnodeLoad b.pnodeLoad
  noConnection := f a.noConnection b.noConnection
  linkUsers := f a.linkUsers b.linkUsers
  bandwidth := f a.bandwidth b.bandwidth
  desires := f a.desires b.desires
  vclass := f a.vclass b.vclass
  delay := f a.delay b.delay
  incorrectEndpoints := f a.incorrectEndpoints b.incorrectEndpoints
  trivialMix := f a.trivialMix b.trivialMix
  subnodes := f a.subnodes b.subnodes
  maxTypes := f a.maxTypes b.maxTypes

/-- A part of the score and of the violations. -/
structure Charge where
  score : ℚ := 0
  violated : Int := 0
  vinfo : ViolatedInfo := {}
deriving DecidableEq

/-- What a step changes is added. -/
def Charge.grow (c : Charge) (s s' : State ℚ) : Charge where
  score := c.score + (s'.score - s.score)
  violated := c.violated + (s'.violated - s.violated)
  vinfo := c.vinfo.zip (· + ·) (s'.vinfo.zip (· - ·) s.vinfo)

/-- A step that charges for the use of a plink. -/
structure Charges (s s' : State ℚ) (score : ℚ) (users ends bandwidth : Int) : Prop where
  score : s'.score = s.score + score
  violated : s'.violated = s.violated + (users + ends + bandwidth)
  vinfo : s'.vinfo = { s.vinfo with
      linkUsers := s.vinfo.linkUsers + users
      bandwidth := s.vinfo.bandwidth + bandwidth
      incorrectEndpoints := s.vinfo.incorrectEndpoints + ends }

theorem Charges.refl (s : State ℚ) : Charges s s 0 0 0 0 :=
  ⟨(add_zero _).symm, by omega, by simp⟩

theorem Charges.trans {s₁ s₂ s₃ : State ℚ} {score score' : ℚ}
    {users ends bandwidth users' ends' bandwidth' : Int} (h : Charges s₁ s₂ score users ends bandwidth)
    (h' : Charges s₂ s₃ score' users' ends' bandwidth') :
    Charges s₁ s₃ (score + score') (users + users') (ends + ends') (bandwidth + bandwidth') where
  score := by rw [h'.score, h.score, add_assoc]
  violated := by rw [h'.violated, h.violated]; ring
  vinfo := by rw [h'.vinfo, h.vinfo]; simp only [add_assoc]

/-! ## Section 2: What users should cost -/

/-- A user of a plink: a vlink, and the nodes between which it uses the plink. -/
structure LinkUse where
  ve : VEdge
  ends : NodePair
deriving DecidableEq

structure PlinkUse where
  emulated : Int
  nonemulated : Int
  /-- The users that are not between the nodes that most of them are between. -/
  misplaced : Int
  bwUsed : Int

/-- The users of a plink that are not between the nodes that most are between. -/
def misplaced (ends : Multiset NodePair) : Int := (ends.card : Int) - (Tally.top ends : Int)

def usersOf (env : Env ℚ) (emulated : Bool) (users : Multiset LinkUse) : Nat :=
  users.countP fun u => (env.vg.vlink u.ve).emulated = emulated

/-- The users, with the bandwidth of each vlink. -/
def plinkUse (env : Env ℚ) (bandwidth : VEdge → Int) (users : Multiset LinkUse) : PlinkUse where
  emulated := usersOf env true users
  nonemulated := usersOf env false users
  misplaced := misplaced (users.map LinkUse.ends)
  bwUsed := (users.map fun u => bandwidth u.ve).sum

/-- One plain user is free of a violation, or any number of emulated ones. -/
def userViolations (emulated nonemulated : Int) : Int :=
  (if 1 < nonemulated then nonemulated - 1 else 0) +
    if 0 < emulated ∧ 0 < nonemulated then 1 else 0

def userScore (env : Env ℚ) (emulated nonemulated : Int) : ℚ :=
  emulated * env.score.emulatedLink + (if 0 < emulated + nonemulated then env.score.directLink else 0) +
    userViolations emulated nonemulated * env.score.directLinkPenalty

/-- How many times the bandwidth of a plink is exceeded. -/
def bandwidthViolations (maxBw bwUsed : Int) : Int :=
  if maxBw < bwUsed then multiple bwUsed maxBw else 0

def bandwidthScore (env : Env ℚ) (maxBw bwUsed : Int) : ℚ :=
  env.score.outsideDelay * ((overBw bwUsed maxBw : ℚ) / (maxBw : ℚ))

section Parts

variable (env : Env ℚ) (pe : PEdge) (u : PlinkUse)

/-- The violations are counted where the type of the plink asks for it. -/
def PlinkUse.users : Int :=
  if (env.pg.plink pe).isType = .normal then userViolations u.emulated u.nonemulated else 0

def PlinkUse.ends : Int := if (env.pg.plink pe).fixends then u.misplaced else 0

def PlinkUse.bandwidth : Int :=
  if (env.pg.plink pe).isType ≠ .lan then
    bandwidthViolations (env.pg.plink pe).bandwidth u.bwUsed
  else
    0

def PlinkUse.usersScore : ℚ :=
  if (env.pg.plink pe).isType = .normal then userScore env u.emulated u.nonemulated else 0

def PlinkUse.endsScore : ℚ := (u.ends env pe : ℚ) * (5 * env.score.directLinkPenalty)

def PlinkUse.bandwidthScore : ℚ :=
  if (env.pg.plink pe).isType ≠ .lan then
    Assign.bandwidthScore env (env.pg.plink pe).bandwidth u.bwUsed
  else
    0

/-- What the use of a plink should cost. -/
def PlinkUse.charge : Charge where
  score := u.usersScore env pe + u.endsScore env pe + u.bandwidthScore env pe
  violated := u.users env pe + u.ends env pe + u.bandwidth env pe
  vinfo :=
    { linkUsers := u.users env pe
      bandwidth := u.bandwidth env pe
      incorrectEndpoints := u.ends env pe }

end Parts

/-! ## Section 3: Users -/

/-- A user more, or less. -/
def PlinkState.addUser (p : PlinkState) (emulated : Bool) (n : Int) : PlinkState :=
  if emulated then { p with emulated := p.emulated + n }
  else { p with nonemulated := p.nonemulated + n }

theorem userViolations_nonemulated {e n : Int} (he : 0 ≤ e) (hn : 0 ≤ n) :
    userViolations e (n + 1) = userViolations e n + if n + 1 + e = 1 then 0 else 1 := by
  unfold userViolations
  split_ifs <;> omega

theorem userViolations_emulated {e n : Int} (he : 0 ≤ e) (hn : 0 ≤ n) :
    userViolations (e + 1) n = userViolations e n + if e = 0 ∧ 0 < n then 1 else 0 := by
  unfold userViolations
  split_ifs <;> omega

theorem userScore_sub (env : Env ℚ) {e n e' n' : Int} (he : 0 ≤ e) (hn : 0 ≤ n) (hmore : e' + n' = e + n + 1) :
    userScore env e' n' - userScore env e n = ((e' - e : Int) : ℚ) * env.score.emulatedLink +
      (if n' + e' = 1 then env.score.directLink else 0) +
      ((userViolations e' n' - userViolations e n : Int) : ℚ) * env.score.directLinkPenalty := by
  unfold userScore
  have hused : 0 < e' + n' := by omega
  rw [if_pos hused]
  by_cases hfirst : n' + e' = 1
  · have hunused : ¬0 < e + n := by omega
    rw [if_neg hunused, if_pos hfirst]
    push_cast
    ring
  · have hused' : 0 < e + n := by omega
    rw [if_pos hused', if_neg hfirst]
    push_cast
    ring

theorem scoreLinkUsers_charges (env : Env ℚ) (pe : PEdge) (ve : VEdge) (s : State ℚ)
    (he : 0 ≤ (s.plink pe).emulated) (hn : 0 ≤ (s.plink pe).nonemulated) :
    let s' := scoreLinkUsers env pe ve s
    let p := s.plink pe
    let p' := p.addUser (env.vg.vlink ve).emulated 1
    s'.plink = update s.plink pe p' ∧
      Charges s s' (userScore env p'.emulated p'.nonemulated - userScore env p.emulated p.nonemulated)
        (userViolations p'.emulated p'.nonemulated - userViolations p.emulated p.nonemulated) 0 0 := by
  dsimp only
  unfold scoreLinkUsers PlinkState.addUser
  cases (env.vg.vlink ve).emulated
  · simp only [Bool.false_eq_true, if_false, Bool.not_false, true_and, false_and, or_false,
      State.setPlink, State.sadd, update_self]
    rw [userScore_sub env he hn (by omega), userViolations_nonemulated he hn]
    by_cases hfirst : (s.plink pe).nonemulated + 1 + (s.plink pe).emulated = 1
    · simp only [if_pos hfirst]
      exact ⟨trivial, ⟨by simp, by simp, by simp⟩⟩
    · simp only [if_neg hfirst]
      -- the violation is counted by the one test or by the other
      by_cases hone : (s.plink pe).nonemulated + 1 = 1
      · have hmore : ¬1 < (s.plink pe).nonemulated + 1 := by omega
        simp only [if_pos hone, if_neg hmore]
        exact ⟨trivial, ⟨by simp, by simp, by simp⟩⟩
      · have hmore : 1 < (s.plink pe).nonemulated + 1 := by omega
        simp only [if_neg hone, if_pos hmore]
        exact ⟨trivial, ⟨by simp, by simp, by simp⟩⟩
  · simp only [if_true, Bool.not_true, Bool.false_eq_true, true_and, false_and, false_or,
      State.setPlink, State.sadd, update_self, if_false]
    rw [userScore_sub env he hn (by omega), userViolations_emulated he hn]
    by_cases hfirst : (s.plink pe).nonemulated + ((s.plink pe).emulated + 1) = 1
    · have hno : ¬((s.plink pe).emulated = 0 ∧ 0 < (s.plink pe).nonemulated) := by omega
      simp only [if_pos hfirst, if_neg hno]
      exact ⟨trivial, ⟨by simp [add_assoc], by simp, by simp⟩⟩
    · simp only [if_neg hfirst]
      by_cases hone : (s.plink pe).emulated + 1 = 1
      · have hmix : (s.plink pe).emulated = 0 ∧ 0 < (s.plink pe).nonemulated := by omega
        simp only [if_pos hone, if_pos hmix]
        exact ⟨trivial, ⟨by simp [add_assoc], by simp, by simp⟩⟩
      · have hmix : ¬((s.plink pe).emulated = 0 ∧ 0 < (s.plink pe).nonemulated) := by omega
        simp only [if_neg hone, if_neg hmix]
        exact ⟨trivial, ⟨by simp, by simp, by simp⟩⟩

theorem unscoreLinkUsers_charges (env : Env ℚ) (pe : PEdge) (ve : VEdge) (s : State ℚ)
    (he : 0 ≤ ((s.plink pe).addUser (env.vg.vlink ve).emulated (-1)).emulated)
    (hn : 0 ≤ ((s.plink pe).addUser (env.vg.vlink ve).emulated (-1)).nonemulated) :
    let s' := unscoreLinkUsers env pe ve s
    let p := s.plink pe
    let p' := p.addUser (env.vg.vlink ve).emulated (-1)
    s'.plink = update s.plink pe p' ∧
      Charges s s' (-(userScore env p.emulated p.nonemulated - userScore env p'.emulated p'.nonemulated))
        (-(userViolations p.emulated p.nonemulated - userViolations p'.emulated p'.nonemulated)) 0 0 := by
  dsimp only
  unfold unscoreLinkUsers
  unfold PlinkState.addUser at *
  generalize (env.vg.vlink ve).emulated = emulated at *
  cases emulated
  · simp only [Bool.false_eq_true, if_false, Int.add_neg_one] at he hn ⊢
    have hviolations := userViolations_nonemulated he hn
    rw [sub_add_cancel] at hviolations
    simp only [Bool.not_false, true_and, false_and, false_or, State.setPlink, State.ssub, update_self]
    rw [userScore_sub env he hn (by omega), hviolations]
    by_cases hlast : (s.plink pe).nonemulated - 1 + (s.plink pe).emulated = 0
    · have hno : ¬1 ≤ (s.plink pe).nonemulated - 1 := by omega
      have hlast' : (s.plink pe).nonemulated + (s.plink pe).emulated = 1 := by omega
      simp only [if_neg hno, update_self, if_pos hlast, if_pos hlast']
      exact ⟨trivial, ⟨by simp [sub_eq_add_neg], by simp, by simp⟩⟩
    · have hlast' : ¬(s.plink pe).nonemulated + (s.plink pe).emulated = 1 := by omega
      -- the violation is taken back by the one test or by the other
      by_cases hone : (s.plink pe).nonemulated - 1 = 0
      · have hno : ¬1 ≤ (s.plink pe).nonemulated - 1 := by omega
        simp only [if_neg hno, update_self, if_neg hlast, if_pos hone, if_neg hlast']
        exact ⟨trivial, ⟨by simp [sub_eq_add_neg], by simp [sub_eq_add_neg], by simp [sub_eq_add_neg]⟩⟩
      · have hmore : 1 ≤ (s.plink pe).nonemulated - 1 := by omega
        simp only [if_pos hmore, update_self, if_neg hlast, if_neg hone, if_neg hlast']
        exact ⟨trivial, ⟨by simp [sub_eq_add_neg], by simp [sub_eq_add_neg], by simp [sub_eq_add_neg]⟩⟩
  · simp only [if_true, Int.add_neg_one] at he hn ⊢
    have hviolations := userViolations_emulated he hn
    rw [sub_add_cancel] at hviolations
    simp only [Bool.not_true, Bool.false_eq_true, true_and, false_and, or_false, State.setPlink,
      State.ssub, update_self]
    rw [userScore_sub env he hn (by omega), hviolations]
    by_cases hlast : (s.plink pe).nonemulated + ((s.plink pe).emulated - 1) = 0
    · have hlast' : (s.plink pe).nonemulated + (s.plink pe).emulated = 1 := by omega
      have hno : ¬((s.plink pe).emulated - 1 = 0 ∧ 0 < (s.plink pe).nonemulated) := by omega
      simp only [if_pos hlast, if_pos hlast', if_neg hno]
      exact ⟨trivial, ⟨by simp; ring, by simp, by simp⟩⟩
    · have hlast' : ¬(s.plink pe).nonemulated + (s.plink pe).emulated = 1 := by omega
      by_cases hone : (s.plink pe).emulated - 1 = 0
      · have hmix : (s.plink pe).emulated - 1 = 0 ∧ 0 < (s.plink pe).nonemulated := by omega
        simp only [if_neg hlast, if_pos hone, if_neg hlast', if_pos hmix]
        exact ⟨trivial, ⟨by simp; ring, by simp [sub_eq_add_neg], by simp [sub_eq_add_neg]⟩⟩
      · have hno : ¬((s.plink pe).emulated - 1 = 0 ∧ 0 < (s.plink pe).nonemulated) := by omega
        simp only [if_neg hlast, if_neg hone, if_neg hlast', if_neg hno]
        exact ⟨trivial, ⟨by simp [sub_eq_add_neg], by simp, by simp⟩⟩

/-! ## Section 4: Endpoints -/

abbrev PlinkState.setEnds (p : PlinkState) (counts : List (NodePair × Int)) (current : NodePair)
    (n : Int) : PlinkState :=
  { p with vedgeCounts := counts, currentEndpoints := current, currentCount := n }

/-- What a plink keeps of the nodes that its users are between. -/
structure PlinkState.Ends (p : PlinkState) (ends : Multiset NodePair) : Prop where
  counts : Tally.Of p.vedgeCounts ends
  currentCount : p.currentCount = (Tally.top ends : Int)
  leads : ends.count p.currentEndpoints = Tally.top ends

theorem scoreLinkEndpoints_charges (env : Env ℚ) (pe : PEdge) (srcPnode dstPnode : PVertex)
    {s : State ℚ} {ends : Multiset NodePair} (h : (s.plink pe).Ends ends) :
    let s' := scoreLinkEndpoints env pe srcPnode dstPnode s
    let ends' := nodePair env srcPnode dstPnode ::ₘ ends
    ∃ counts current n, s'.plink = update s.plink pe ((s.plink pe).setEnds counts current n) ∧
      ((s.plink pe).setEnds counts current n).Ends ends' ∧
      Charges s s' ((misplaced ends' - misplaced ends : Int) * (5 * env.score.directLinkPenalty)) 0
        (misplaced ends' - misplaced ends) 0 := by
  dsimp only
  unfold scoreLinkEndpoints
  generalize nodePair env srcPnode dstPnode = p
  have hcons := h.counts.cons p
  have hcount : vedgeCount (setVedgeCount (s.plink pe).vedgeCounts p
      (vedgeCount (s.plink pe).vedgeCounts p + 1)) p = (ends.count p : Int) + 1 := by
    refine (hcons.count p).trans ?_
    rw [Multiset.count_cons_self]
    push_cast
    rfl
  have htop := Tally.top_cons p ends
  have hle := Tally.count_le_top ends p
  have hcurrent := h.currentCount
  simp only [State.setPlink, State.sadd, update_self, update_idem]
  unfold misplaced
  rw [Multiset.card_cons]
  by_cases hleader : p = (s.plink pe).currentEndpoints
  · have hmost : Tally.top (p ::ₘ ends) = Tally.top ends + 1 := by
      rw [htop, hleader, h.leads, max_eq_right (Nat.le_succ _)]
    rw [if_pos hleader]
    refine ⟨_, _, _, rfl, ⟨hcons, ?_, ?_⟩, ?_⟩
    · rw [hmost, hcurrent]
      push_cast
      rfl
    · rw [hmost, ← hleader, Multiset.count_cons_self, hleader, h.leads]
    · rw [hmost]
      exact ⟨by simp, by simp, by simp⟩
  · rw [if_neg hleader, hcount]
    by_cases hpassed : (s.plink pe).currentCount < (ends.count p : Int) + 1
    · -- the old leader is passed by one
      have hmost : Tally.top (p ::ₘ ends) = Tally.top ends + 1 := by
        rw [htop]
        omega
      rw [if_pos hpassed]
      refine ⟨_, _, _, rfl, ⟨hcons, ?_, ?_⟩, ?_⟩
      · rw [hmost, hcurrent]
        push_cast
        rfl
      · rw [hmost, Multiset.count_cons_self]
        dsimp only
        omega
      · rw [hmost]
        exact ⟨by simp, by simp, by simp⟩
    · have hsame : Tally.top (p ::ₘ ends) = Tally.top ends := by
        rw [htop]
        omega
      rw [if_neg hpassed]
      refine ⟨_, _, _, rfl, ⟨hcons, ?_, ?_⟩, ?_⟩
      · rw [hsame, hcurrent]
      · rw [hsame, Multiset.count_cons_of_ne (Ne.symm hleader), h.leads]
      · rw [hsame]
        exact ⟨by simp, by simp, by simp⟩

/-- The heaviest endpoints are those that most users are between. -/
theorem unscoreLinkEndpoints_charges (env : Env ℚ) (pe : PEdge) (srcPnode dstPnode : PVertex)
    {s : State ℚ} {ends : Multiset NodePair} (h : (s.plink pe).Ends ends)
    (hmem : nodePair env srcPnode dstPnode ∈ ends) :
    let ends' := ends.erase (nodePair env srcPnode dstPnode)
    ∃ s' counts current n, unscoreLinkEndpoints env pe srcPnode dstPnode s = .ok s' ∧
      s'.plink = update s.plink pe ((s.plink pe).setEnds counts current n) ∧
      ((s.plink pe).setEnds counts current n).Ends ends' ∧
      Charges s s' (-((misplaced ends - misplaced ends' : Int) * (5 * env.score.directLinkPenalty)))
        0 (-(misplaced ends - misplaced ends')) 0 := by
  dsimp only
  unfold unscoreLinkEndpoints
  generalize nodePair env srcPnode dstPnode = p at *
  have hcount : vedgeCount (s.plink pe).vedgeCounts p = (ends.count p : Int) := h.counts.count p
  have hpos := Multiset.count_pos.mpr hmem
  have hcard := Multiset.card_erase_add_one hmem
  have htop : Tally.top ends = max (Tally.top (ends.erase p)) ((ends.erase p).count p + 1) := by
    conv_lhs => rw [← Multiset.cons_erase hmem]
    exact Tally.top_cons p _
  have hless := Multiset.count_erase_self p ends
  have hle := Tally.count_le_top (ends.erase p) p
  have hcounts := h.counts.erase hmem rfl
  have hcurrent := h.currentCount
  rw [if_pos (by rw [hcount]; exact_mod_cast hpos)]
  simp only [State.setPlink, State.ssub, update_self, update_idem]
  change Tally.Of (if vedgeCount (s.plink pe).vedgeCounts p - 1 = 0 then
    (s.plink pe).vedgeCounts.filter (·.1 ≠ p) else setVedgeCount (s.plink pe).vedgeCounts p
      (vedgeCount (s.plink pe).vedgeCounts p - 1)) (ends.erase p) at hcounts
  generalize (if vedgeCount (s.plink pe).vedgeCounts p - 1 = 0 then
    (s.plink pe).vedgeCounts.filter (·.1 ≠ p) else setVedgeCount (s.plink pe).vedgeCounts p
      (vedgeCount (s.plink pe).vedgeCounts p - 1)) = counts at *
  unfold misplaced
  by_cases hleader : p = (s.plink pe).currentEndpoints
  · rw [if_pos hleader]
    obtain ⟨hhighest, hleads⟩ := hcounts.largest (env.hashOrder_perm counts) (("", "") : NodePair)
    change (highestEndpoints (env.hashOrder counts)).2 = _ at hhighest
    change ((ends.erase p).count (highestEndpoints (env.hashOrder counts)).1 : Int) = _ at hleads
    generalize highestEndpoints (env.hashOrder counts) = highest at *
    have hends : ((s.plink pe).setEnds counts highest.1 highest.2).Ends (ends.erase p) :=
      ⟨hcounts, hhighest, by exact_mod_cast hleads⟩
    rw [hcount]
    by_cases hfreed : (ends.count p : Int) - 1 < highest.2
    · have hone : ((ends.card : Int) - Tally.top ends) -
          ((ends.erase p).card - Tally.top (ends.erase p)) = 1 := by omega
      rw [if_pos hfreed, hone]
      exact ⟨_, counts, highest.1, highest.2, rfl, rfl, hends,
        ⟨by simp [sub_eq_add_neg], by simp [sub_eq_add_neg], by simp [sub_eq_add_neg]⟩⟩
    · have hnone : ((ends.card : Int) - Tally.top ends) -
          ((ends.erase p).card - Tally.top (ends.erase p)) = 0 := by omega
      rw [if_neg hfreed, hnone]
      exact ⟨_, counts, highest.1, highest.2, rfl, rfl, hends, ⟨by simp, by simp, by simp⟩⟩
  · -- the leader stays where it is
    have hstill : (ends.erase p).count (s.plink pe).currentEndpoints = Tally.top ends := by
      rw [Multiset.count_erase_of_ne (Ne.symm hleader), h.leads]
    have hsame : Tally.top (ends.erase p) = Tally.top ends := by
      have := Tally.count_le_top (ends.erase p) (s.plink pe).currentEndpoints
      omega
    have hone : ((ends.card : Int) - Tally.top ends) -
        ((ends.erase p).card - Tally.top (ends.erase p)) = 1 := by omega
    rw [if_neg hleader, hone]
    refine ⟨_, counts, (s.plink pe).currentEndpoints, (s.plink pe).currentCount, rfl, rfl, ⟨hcounts, ?_, ?_⟩,
      ⟨by simp [sub_eq_add_neg], by simp [sub_eq_add_neg], by simp [sub_eq_add_neg]⟩⟩
    · rw [hsame, hcurrent]
    · rw [hsame, hstill]

/-! ## Section 5: Bandwidth -/

/-- What `score_link` counts when the bandwidth rises from `lo` to `hi`, and `unscore_link`
    when it falls back. -/
def crossed (maxBw lo hi : Int) : Int :=
  if maxBw < hi then multiple hi maxBw - multiple lo maxBw else 0

def crossedScore (env : Env ℚ) (maxBw lo hi : Int) : ℚ :=
  if maxBw < hi then
    env.score.outsideDelay * (((overBw hi maxBw - overBw lo maxBw : Int) : ℚ) / (maxBw : ℚ))
  else
    0

/-- Between two bandwidths `multiple` counts how many times the limit is passed. -/
def Consistent (maxBw lo hi : Int) : Prop :=
  if maxBw < hi then maxBw < lo ∨ multiple lo maxBw = 0 else lo ≤ maxBw

instance (maxBw lo hi : Int) : Decidable (Consistent maxBw lo hi) := by
  unfold Consistent
  infer_instance

theorem overBw_ne_zero (bw maxBw : Int) : overBw bw maxBw ≠ 0 ↔ maxBw < bw := by
  unfold overBw
  split <;> omega

theorem scoreLinkBandwidth_charges (env : Env ℚ) (pe : PEdge) (ve : VEdge) (s : State ℚ) :
    let s' := scoreLinkBandwidth env pe ve s
    let p := s.plink pe
    let maxBw := (env.pg.plink pe).bandwidth
    let newBw := p.bwUsed + (s.vlink ve).bandwidth
    s'.plink = update s.plink pe { p with bwUsed := newBw } ∧
      Charges s s' (crossedScore env maxBw p.bwUsed newBw) 0 0 (crossed maxBw p.bwUsed newBw) := by
  dsimp only
  unfold scoreLinkBandwidth crossed crossedScore
  simp only [overBw_ne_zero, State.setPlink, State.sadd]
  split
  · exact ⟨rfl, ⟨by simp, by simp, by simp⟩⟩
  · exact ⟨rfl, ⟨by simp, by simp, by simp⟩⟩

theorem unscoreLinkBandwidth_charges (env : Env ℚ) (pe : PEdge) (ve : VEdge) (s : State ℚ) :
    let s' := unscoreLinkBandwidth env pe ve s
    let p := s.plink pe
    let maxBw := (env.pg.plink pe).bandwidth
    let newBw := p.bwUsed - (s.vlink ve).bandwidth
    s'.plink = update s.plink pe { p with bwUsed := newBw } ∧
      Charges s s' (-crossedScore env maxBw newBw p.bwUsed) 0 0 (-crossed maxBw newBw p.bwUsed) := by
  dsimp only
  unfold unscoreLinkBandwidth crossed crossedScore
  simp only [overBw_ne_zero, State.setPlink, State.ssub]
  split
  · exact ⟨rfl, ⟨by simp [sub_eq_add_neg], by simp [sub_eq_add_neg], by simp [sub_eq_add_neg]⟩⟩
  · exact ⟨rfl, ⟨by simp, by simp, by simp⟩⟩

theorem consistent_iff {maxBw lo hi : Int} (hmax : 0 < maxBw) :
    bandwidthViolations maxBw lo + crossed maxBw lo hi = bandwidthViolations maxBw hi ↔
      Consistent maxBw lo hi := by
  have hpos : maxBw < lo → 0 < multiple lo maxBw := by
    intro hlt
    unfold multiple
    rw [Int.tdiv_eq_ediv_of_nonneg (by omega)]
    exact Int.le_ediv_of_mul_le hmax (by omega)
  unfold bandwidthViolations crossed Consistent
  split_ifs <;> omega

theorem Consistent.score {maxBw lo hi : Int} (h : Consistent maxBw lo hi) (env : Env ℚ) :
    bandwidthScore env maxBw lo + crossedScore env maxBw lo hi = bandwidthScore env maxBw hi := by
  unfold bandwidthScore crossedScore
  unfold Consistent at h
  split_ifs at h ⊢ with hhi
  · push_cast
    ring
  · have hlo' : overBw lo maxBw = 0 := if_neg (by omega)
    have hhi' : overBw hi maxBw = 0 := if_neg hhi
    rw [hlo', hhi', add_zero]

/-! ## Section 6: One call -/

structure Tracks (env : Env ℚ) (bandwidth : VEdge → Int) (pe : PEdge) (p : PlinkState)
    (users : Multiset LinkUse) : Prop where
  emulated : (env.pg.plink pe).isType = .normal → p.emulated = (usersOf env true users : Int)
  nonemulated : (env.pg.plink pe).isType = .normal → p.nonemulated = (usersOf env false users : Int)
  ends : (env.pg.plink pe).fixends = true → p.Ends (users.map LinkUse.ends)
  bwUsed : (env.pg.plink pe).isType ≠ .lan → p.bwUsed = (plinkUse env bandwidth users).bwUsed

variable {env : Env ℚ} {bandwidth : VEdge → Int} {pe : PEdge}

theorem bwUsed_cons (env : Env ℚ) (bandwidth : VEdge → Int) (u : LinkUse) (users : Multiset LinkUse) :
    (plinkUse env bandwidth (u ::ₘ users)).bwUsed = (plinkUse env bandwidth users).bwUsed + bandwidth u.ve := by
  simp [plinkUse, add_comm]

theorem usersOf_cons (env : Env ℚ) (b : Bool) (u : LinkUse) (users : Multiset LinkUse) :
    usersOf env b (u ::ₘ users) = usersOf env b users + if (env.vg.vlink u.ve).emulated = b then 1 else 0 :=
  Multiset.countP_cons _ u users

theorem addUser_emulated (p : PlinkState) (b : Bool) (n : Int) :
    (p.addUser b n).emulated = p.emulated + if b = true then n else 0 := by
  cases b <;> simp [PlinkState.addUser]

theorem addUser_nonemulated (p : PlinkState) (b : Bool) (n : Int) :
    (p.addUser b n).nonemulated = p.nonemulated + if b = false then n else 0 := by
  cases b <;> simp [PlinkState.addUser]

theorem addUser_eq (p : PlinkState) (b : Bool) (n : Int) : p.addUser b n =
      { p with emulated := (p.addUser b n).emulated, nonemulated := (p.addUser b n).nonemulated } := by
  cases b <;> rfl

section Score

variable {ve : VEdge} {srcPnode dstPnode : PVertex} {s : State ℚ} {users : Multiset LinkUse} {use : LinkUse}

theorem scoreUsers_part (h : Tracks env bandwidth pe (s.plink pe) users) (hve : use.ve = ve) :
    let s' := if (env.pg.plink pe).isType = .normal then scoreLinkUsers env pe ve s else s
    let u := plinkUse env bandwidth users
    let u' := plinkUse env bandwidth (use ::ₘ users)
    ∃ e n, s'.plink = update s.plink pe { s.plink pe with emulated := e, nonemulated := n } ∧
      ((env.pg.plink pe).isType = .normal → e = u'.emulated ∧ n = u'.nonemulated) ∧
      Charges s s' (u'.usersScore env pe - u.usersScore env pe) (u'.users env pe - u.users env pe) 0 0 := by
  dsimp only
  unfold PlinkUse.users PlinkUse.usersScore
  by_cases hnormal : (env.pg.plink pe).isType = .normal
  · simp only [if_pos hnormal]
    have he := h.emulated hnormal
    have hn := h.nonemulated hnormal
    obtain ⟨hplink, hcharges⟩ := scoreLinkUsers_charges env pe ve s (by omega) (by omega)
    have he' : ((s.plink pe).addUser (env.vg.vlink ve).emulated 1).emulated =
        (usersOf env true (use ::ₘ users) : Int) := by
      rw [addUser_emulated, he, usersOf_cons, hve]
      push_cast
      rfl
    have hn' : ((s.plink pe).addUser (env.vg.vlink ve).emulated 1).nonemulated =
        (usersOf env false (use ::ₘ users) : Int) := by
      rw [addUser_nonemulated, hn, usersOf_cons, hve]
      push_cast
      rfl
    rw [addUser_eq] at hplink
    refine ⟨_, _, hplink, fun _ => ⟨he', hn'⟩, ?_⟩
    rw [he', hn', he, hn] at hcharges
    exact hcharges
  · simp only [if_neg hnormal, sub_self]
    exact ⟨_, _, (update_eq_self pe s.plink).symm, fun hn => absurd hn hnormal, .refl s⟩

variable (bandwidth) in
theorem scoreEnds_part (h : (env.pg.plink pe).fixends = true → (s.plink pe).Ends (users.map LinkUse.ends))
    (hends : use.ends = nodePair env srcPnode dstPnode) :
    let s' := if (env.pg.plink pe).fixends then scoreLinkEndpoints env pe srcPnode dstPnode s else s
    let u := plinkUse env bandwidth users
    let u' := plinkUse env bandwidth (use ::ₘ users)
    ∃ counts current n, s'.plink = update s.plink pe ((s.plink pe).setEnds counts current n) ∧
      ((env.pg.plink pe).fixends = true → ((s.plink pe).setEnds counts current n).Ends
        ((use ::ₘ users).map LinkUse.ends)) ∧
      Charges s s' (u'.endsScore env pe - u.endsScore env pe) 0 (u'.ends env pe - u.ends env pe) 0 := by
  dsimp only
  unfold PlinkUse.endsScore PlinkUse.ends
  by_cases hfix : (env.pg.plink pe).fixends = true
  · simp only [if_pos hfix]
    obtain ⟨counts, current, n, hplink, hkept, hcharges⟩ :=
      scoreLinkEndpoints_charges env pe srcPnode dstPnode (h hfix)
    rw [← hends, ← Multiset.map_cons] at hkept hcharges
    refine ⟨counts, current, n, hplink, fun _ => hkept, ?_⟩
    rw [← sub_mul, ← Int.cast_sub]
    exact hcharges
  · simp only [if_neg hfix, sub_self]
    exact ⟨_, _, _, (update_eq_self pe s.plink).symm, fun hf => absurd hf hfix, .refl s⟩

theorem scoreBandwidth_part {lo hi : Int} (hlo : (env.pg.plink pe).isType ≠ .lan → (s.plink pe).bwUsed = lo)
    (hhi : hi = lo + (s.vlink ve).bandwidth) :
    let s' := if (env.pg.plink pe).isType ≠ .lan then scoreLinkBandwidth env pe ve s else s
    let maxBw := (env.pg.plink pe).bandwidth
    ∃ bw, s'.plink = update s.plink pe { s.plink pe with bwUsed := bw } ∧
      ((env.pg.plink pe).isType ≠ .lan → bw = hi) ∧
      Charges s s' (if (env.pg.plink pe).isType ≠ .lan then crossedScore env maxBw lo hi else 0) 0 0
        (if (env.pg.plink pe).isType ≠ .lan then crossed maxBw lo hi else 0) := by
  dsimp only
  by_cases hlan : (env.pg.plink pe).isType ≠ .lan
  · simp only [if_pos hlan]
    obtain ⟨hplink, hcharges⟩ := scoreLinkBandwidth_charges env pe ve s
    rw [hlo hlan, ← hhi] at hplink hcharges
    exact ⟨hi, hplink, fun _ => rfl, hcharges⟩
  · simp only [if_neg hlan]
    exact ⟨_, (update_eq_self pe s.plink).symm, fun hl => absurd hl hlan, .refl s⟩

theorem tracks_of_parts {s s₁ s₂ s₃ : State ℚ} {e n m bw : Int} {counts : List (NodePair × Int)}
    {current : NodePair} {users : Multiset LinkUse}
    (h₁ : s₁.plink = update s.plink pe { s.plink pe with emulated := e, nonemulated := n })
    (h₂ : s₂.plink = update s₁.plink pe ((s₁.plink pe).setEnds counts current m))
    (h₃ : s₃.plink = update s₂.plink pe { s₂.plink pe with bwUsed := bw })
    (hcounts : (env.pg.plink pe).isType = .normal →
      e = (plinkUse env bandwidth users).emulated ∧ n = (plinkUse env bandwidth users).nonemulated)
    (hends : (env.pg.plink pe).fixends = true → ((s₁.plink pe).setEnds counts current m).Ends
      (users.map LinkUse.ends))
    (hbw : (env.pg.plink pe).isType ≠ .lan → bw = (plinkUse env bandwidth users).bwUsed) :
    Tracks env bandwidth pe (s₃.plink pe) users ∧ ∀ pe', pe' ≠ pe → s₃.plink pe' = s.plink pe' := by
  constructor
  · rw [h₃, update_self, h₂, update_self]
    refine ⟨fun hn => ?_, fun hn => ?_, fun hfix => ?_, hbw⟩
    · rw [h₁, update_self]
      exact (hcounts hn).1
    · rw [h₁, update_self]
      exact (hcounts hn).2
    · exact ⟨(hends hfix).1, (hends hfix).2, (hends hfix).3⟩
  · intro pe' hne
    rw [h₃, update_of_ne hne, h₂, update_of_ne hne, h₁, update_of_ne hne]

variable (srcPnode dstPnode) in
/-- A user more costs what the two counts differ by. What it costs in bandwidth is left open. -/
theorem scoreLink_spec (h : Tracks env bandwidth pe (s.plink pe) users)
    (hbw : (s.vlink ve).bandwidth = bandwidth ve) :
    let s' := scoreLink env pe ve srcPnode dstPnode s
    let users' := ⟨ve, nodePair env srcPnode dstPnode⟩ ::ₘ users
    let u := plinkUse env bandwidth users
    let u' := plinkUse env bandwidth users'
    let maxBw := (env.pg.plink pe).bandwidth
    s'.vlink = s.vlink ∧ (Tracks env bandwidth pe (s'.plink pe) users' ∧
        ∀ pe', pe' ≠ pe → s'.plink pe' = s.plink pe') ∧
      Charges s s' (u'.usersScore env pe - u.usersScore env pe + (u'.endsScore env pe - u.endsScore env pe) +
          if (env.pg.plink pe).isType ≠ .lan then crossedScore env maxBw u.bwUsed u'.bwUsed else 0)
        (u'.users env pe - u.users env pe) (u'.ends env pe - u.ends env pe)
        (if (env.pg.plink pe).isType ≠ .lan then crossed maxBw u.bwUsed u'.bwUsed else 0) := by
  have hvlink := (scoreLink_scores env pe ve srcPnode dstPnode s).1
  generalize huse : (⟨ve, nodePair env srcPnode dstPnode⟩ : LinkUse) = use
  have hve : use.ve = ve := by rw [← huse]
  have hpair : use.ends = nodePair env srcPnode dstPnode := by rw [← huse]
  unfold scoreLink at hvlink ⊢
  dsimp only at hvlink ⊢
  obtain ⟨e, n, hplink₁, hcounts, hcharges₁⟩ := scoreUsers_part h hve
  have hvlink₁ : (if (env.pg.plink pe).isType = .normal then scoreLinkUsers env pe ve s else s).vlink =
      s.vlink := by
    split
    · exact (scoreLinkUsers_scores env pe ve s).1
    · rfl
  generalize (if (env.pg.plink pe).isType = .normal then scoreLinkUsers env pe ve s else s) = s₁ at *
  have hends₁ : (env.pg.plink pe).fixends = true → (s₁.plink pe).Ends (users.map LinkUse.ends) := by
    intro hfix
    rw [hplink₁, update_self]
    exact ⟨(h.ends hfix).1, (h.ends hfix).2, (h.ends hfix).3⟩
  obtain ⟨counts, current, m, hplink₂, hends, hcharges₂⟩ := scoreEnds_part bandwidth hends₁ hpair
  have hvlink₂ : (if (env.pg.plink pe).fixends then scoreLinkEndpoints env pe srcPnode dstPnode s₁
      else s₁).vlink = s₁.vlink := by
    split
    · exact (scoreLinkEndpoints_scores env pe srcPnode dstPnode s₁).1
    · rfl
  generalize (if (env.pg.plink pe).fixends then scoreLinkEndpoints env pe srcPnode dstPnode s₁
    else s₁) = s₂ at *
  have hlo : (env.pg.plink pe).isType ≠ .lan → (s₂.plink pe).bwUsed = (plinkUse env bandwidth users).bwUsed := by
    intro hlan
    rw [hplink₂, update_self, hplink₁, update_self]
    exact h.bwUsed hlan
  have hhi : (plinkUse env bandwidth (use ::ₘ users)).bwUsed =
      (plinkUse env bandwidth users).bwUsed + (s₂.vlink ve).bandwidth := by
    rw [hvlink₂, hvlink₁, hbw, ← hve, bwUsed_cons]
  obtain ⟨bw, hplink₃, hbw₃, hcharges₃⟩ := scoreBandwidth_part hlo hhi
  refine ⟨hvlink, tracks_of_parts hplink₁ hplink₂ hplink₃ hcounts hends hbw₃, ?_⟩
  have hall := (hcharges₁.trans hcharges₂).trans hcharges₃
  simpa only [add_zero, zero_add] using hall

end Score

section Unscore

variable {ve : VEdge} {srcPnode dstPnode : PVertex} {s : State ℚ} {users : Multiset LinkUse} {use : LinkUse}

theorem unscoreUsers_part (h : Tracks env bandwidth pe (s.plink pe) (use ::ₘ users)) (hve : use.ve = ve) :
    let s' := if (env.pg.plink pe).isType = .normal then unscoreLinkUsers env pe ve s else s
    let u := plinkUse env bandwidth (use ::ₘ users)
    let u' := plinkUse env bandwidth users
    ∃ e n, s'.plink = update s.plink pe { s.plink pe with emulated := e, nonemulated := n } ∧
      ((env.pg.plink pe).isType = .normal → e = u'.emulated ∧ n = u'.nonemulated) ∧
      Charges s s' (-(u.usersScore env pe - u'.usersScore env pe)) (-(u.users env pe - u'.users env pe)) 0 0 := by
  dsimp only
  unfold PlinkUse.users PlinkUse.usersScore
  by_cases hnormal : (env.pg.plink pe).isType = .normal
  · simp only [if_pos hnormal]
    have he := h.emulated hnormal
    have hn := h.nonemulated hnormal
    have he' : ((s.plink pe).addUser (env.vg.vlink ve).emulated (-1)).emulated =
        (usersOf env true users : Int) := by
      rw [addUser_emulated, he, usersOf_cons, hve]
      split <;> simp
    have hn' : ((s.plink pe).addUser (env.vg.vlink ve).emulated (-1)).nonemulated =
        (usersOf env false users : Int) := by
      rw [addUser_nonemulated, hn, usersOf_cons, hve]
      split <;> simp
    obtain ⟨hplink, hcharges⟩ := unscoreLinkUsers_charges env pe ve s (by omega) (by omega)
    rw [addUser_eq] at hplink
    refine ⟨_, _, hplink, fun _ => ⟨he', hn'⟩, ?_⟩
    rw [he', hn', he, hn] at hcharges
    exact hcharges
  · simp only [if_neg hnormal, sub_self, neg_zero]
    exact ⟨_, _, (update_eq_self pe s.plink).symm, fun hn => absurd hn hnormal, .refl s⟩

variable (bandwidth) in
theorem unscoreEnds_part
    (h : (env.pg.plink pe).fixends = true → (s.plink pe).Ends ((use ::ₘ users).map LinkUse.ends))
    (hends : use.ends = nodePair env srcPnode dstPnode) :
    let u := plinkUse env bandwidth (use ::ₘ users)
    let u' := plinkUse env bandwidth users
    ∃ s' counts current n, (if (env.pg.plink pe).fixends then
        unscoreLinkEndpoints env pe srcPnode dstPnode s else .ok s) = .ok s' ∧
      s'.plink = update s.plink pe ((s.plink pe).setEnds counts current n) ∧
      ((env.pg.plink pe).fixends = true → ((s.plink pe).setEnds counts current n).Ends (users.map LinkUse.ends)) ∧
      Charges s s' (-(u.endsScore env pe - u'.endsScore env pe)) 0 (-(u.ends env pe - u'.ends env pe)) 0 := by
  dsimp only
  unfold PlinkUse.endsScore PlinkUse.ends
  by_cases hfix : (env.pg.plink pe).fixends = true
  · simp only [if_pos hfix]
    have hmem : nodePair env srcPnode dstPnode ∈ (use ::ₘ users).map LinkUse.ends := by
      rw [← hends]
      exact Multiset.mem_map_of_mem _ (Multiset.mem_cons_self use users)
    obtain ⟨s', counts, current, n, hok, hplink, hkept, hcharges⟩ :=
      unscoreLinkEndpoints_charges env pe srcPnode dstPnode (h hfix) hmem
    rw [← hends, Multiset.map_cons, Multiset.erase_cons_head] at hkept hcharges
    refine ⟨s', counts, current, n, hok, hplink, fun _ => hkept, ?_⟩
    rw [← sub_mul, ← Int.cast_sub]
    unfold plinkUse
    rw [Multiset.map_cons]
    exact hcharges
  · simp only [if_neg hfix, sub_self, neg_zero]
    exact ⟨s, _, _, _, rfl, (update_eq_self pe s.plink).symm, fun hf => absurd hf hfix, .refl s⟩

theorem unscoreBandwidth_part {lo hi : Int} (hhi : (env.pg.plink pe).isType ≠ .lan → (s.plink pe).bwUsed = hi)
    (hlo : hi = lo + (s.vlink ve).bandwidth) :
    let s' := if (env.pg.plink pe).isType ≠ .lan then unscoreLinkBandwidth env pe ve s else s
    let maxBw := (env.pg.plink pe).bandwidth
    ∃ bw, s'.plink = update s.plink pe { s.plink pe with bwUsed := bw } ∧
      ((env.pg.plink pe).isType ≠ .lan → bw = lo) ∧
      Charges s s' (-if (env.pg.plink pe).isType ≠ .lan then crossedScore env maxBw lo hi else 0) 0 0
        (-if (env.pg.plink pe).isType ≠ .lan then crossed maxBw lo hi else 0) := by
  dsimp only
  by_cases hlan : (env.pg.plink pe).isType ≠ .lan
  · simp only [if_pos hlan]
    obtain ⟨hplink, hcharges⟩ := unscoreLinkBandwidth_charges env pe ve s
    have hback : hi - (s.vlink ve).bandwidth = lo := by omega
    rw [hhi hlan, hback] at hplink hcharges
    exact ⟨lo, hplink, fun _ => rfl, hcharges⟩
  · simp only [if_neg hlan, neg_zero]
    exact ⟨_, (update_eq_self pe s.plink).symm, fun hl => absurd hl hlan, .refl s⟩

/-- A user less is refunded what the two counts differ by, and no assertion fails. -/
theorem unscoreLink_spec
    (h : Tracks env bandwidth pe (s.plink pe) (⟨ve, nodePair env srcPnode dstPnode⟩ ::ₘ users))
    (hbw : (s.vlink ve).bandwidth = bandwidth ve) :
    let u := plinkUse env bandwidth (⟨ve, nodePair env srcPnode dstPnode⟩ ::ₘ users)
    let u' := plinkUse env bandwidth users
    let maxBw := (env.pg.plink pe).bandwidth
    ∃ s', unscoreLink env pe ve srcPnode dstPnode s = .ok (setUnmapped ve s') ∧ s'.vlink = s.vlink ∧
      (Tracks env bandwidth pe (s'.plink pe) users ∧ ∀ pe', pe' ≠ pe → s'.plink pe' = s.plink pe') ∧
      Charges s s' (-(u.usersScore env pe - u'.usersScore env pe + (u.endsScore env pe - u'.endsScore env pe) +
          if (env.pg.plink pe).isType ≠ .lan then crossedScore env maxBw u'.bwUsed u.bwUsed else 0))
        (-(u.users env pe - u'.users env pe)) (-(u.ends env pe - u'.ends env pe))
        (-if (env.pg.plink pe).isType ≠ .lan then crossed maxBw u'.bwUsed u.bwUsed else 0) := by
  generalize huse : (⟨ve, nodePair env srcPnode dstPnode⟩ : LinkUse) = use at *
  have hve : use.ve = ve := by rw [← huse]
  have hpair : use.ends = nodePair env srcPnode dstPnode := by rw [← huse]
  unfold unscoreLink
  dsimp only
  obtain ⟨e, n, hplink₁, hcounts, hcharges₁⟩ := unscoreUsers_part h hve
  have hvlink₁ : (if (env.pg.plink pe).isType = .normal then unscoreLinkUsers env pe ve s else s).vlink =
      s.vlink := by
    split
    · exact (unscoreLinkUsers_scores env pe ve s).1
    · rfl
  generalize (if (env.pg.plink pe).isType = .normal then unscoreLinkUsers env pe ve s else s) = s₁ at *
  have hends₁ : (env.pg.plink pe).fixends = true → (s₁.plink pe).Ends ((use ::ₘ users).map LinkUse.ends) := by
    intro hfix
    rw [hplink₁, update_self]
    exact ⟨(h.ends hfix).1, (h.ends hfix).2, (h.ends hfix).3⟩
  obtain ⟨s₂, counts, current, m, hok, hplink₂, hends, hcharges₂⟩ := unscoreEnds_part bandwidth hends₁ hpair
  have hvlink₂ : s₂.vlink = s₁.vlink := by
    split at hok
    · exact ((unscoreLinkEndpoints_scores env pe srcPnode dstPnode s₁).of_ok hok).1
    · rw [Except.ok.inj hok]
  have hhi : (env.pg.plink pe).isType ≠ .lan →
      (s₂.plink pe).bwUsed = (plinkUse env bandwidth (use ::ₘ users)).bwUsed := by
    intro hlan
    rw [hplink₂, update_self, hplink₁, update_self]
    exact h.bwUsed hlan
  have hlo : (plinkUse env bandwidth (use ::ₘ users)).bwUsed =
      (plinkUse env bandwidth users).bwUsed + (s₂.vlink ve).bandwidth := by
    rw [hvlink₂, hvlink₁, hbw, ← hve, bwUsed_cons]
  obtain ⟨bw, hplink₃, hbw₃, hcharges₃⟩ := unscoreBandwidth_part hhi hlo
  have hvlink₃ : (if (env.pg.plink pe).isType ≠ .lan then unscoreLinkBandwidth env pe ve s₂
      else s₂).vlink = s₂.vlink := by
    split
    · exact (unscoreLinkBandwidth_scores env pe ve s₂).1
    · rfl
  rw [hok]
  refine ⟨_, rfl, ?_, tracks_of_parts hplink₁ hplink₂ hplink₃ hcounts hends hbw₃, ?_⟩
  · rw [hvlink₃, hvlink₂, hvlink₁]
  · have hall := (hcharges₁.trans hcharges₂).trans hcharges₃
    simpa only [add_zero, zero_add, neg_add] using hall

end Unscore

end Emulab.Assign
