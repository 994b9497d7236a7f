import Emulab.Assign.Counters
import Emulab.Assign.FeatureSet
import Emulab.Lib.Machine

/-! # What features cost, over all histories

  When a vnode is assigned `score_fds` says what its desires and the features
  of the pnode cost, and when it is unassigned what is refunded. For a feature
  with a capacity, and for a global one, this depends on who else uses it.
-/

namespace Emulab.Assign

open Machine Function List Option

deriving instance DecidableEq for NodeFd
deriving instance DecidableEq for Membership

/-! ## Section 1: Sums over accounts -/

section SumsTo

variable {α M : Type*} [AddCommGroup M]

/-- A function that is not zero in finitely many places only, and what it amounts to. -/
def SumsTo (f : α → M) (x : M) : Prop := ∃ F : Finset α, (∀ a ∉ F, f a = 0) ∧ F.sum f = x

theorem sumsTo_zero : SumsTo (fun _ : α => (0 : M)) 0 := ⟨∅, fun _ _ => rfl, rfl⟩

theorem SumsTo.eq_zero {f : α → M} {x : M} (h : SumsTo f x) (hf : ∀ a, f a = 0) : x = 0 := by
  obtain ⟨F, -, rfl⟩ := h
  exact Finset.sum_eq_zero fun a _ => hf a

theorem SumsTo.change [DecidableEq α] {f f' : α → M} {x d : M} (h : SumsTo f x) (a : α)
    (ha : f' a = f a + d) (hothers : ∀ b, b ≠ a → f' b = f b) : SumsTo f' (x + d) := by
  obtain ⟨F, hzero, rfl⟩ := h
  refine ⟨insert a F, fun b hb => ?_, ?_⟩
  · rw [Finset.mem_insert, not_or] at hb
    rw [hothers b hb.1, hzero b hb.2]
  · have hf : F.sum f = (insert a F).sum f :=
      (Finset.sum_insert_of_eq_zero_if_notMem (hzero a)).symm
    have herase : ((insert a F).erase a).sum f' = ((insert a F).erase a).sum f :=
      Finset.sum_congr rfl fun b hb => hothers b (Finset.ne_of_mem_erase hb)
    rw [hf, ← Finset.add_sum_erase _ f' (Finset.mem_insert_self a F),
      ← Finset.add_sum_erase _ f (Finset.mem_insert_self a F), ha, herase, add_right_comm]

end SumsTo

/-! ## Section 2: The turns of the loop -/

/-- What a turn of the loop of `score_fds` is about: a step of the iterator, at a pnode. -/
structure FdUse where
  pv : PVertex
  m : Membership ℚ
deriving DecidableEq

inductive FdTurn where
  | add (u : FdUse)
  | remove (u : FdUse)

/-- The state, with what is known of the turns that have led to it. -/
structure FdHistory where
  state : State ℚ
  uses : Multiset FdUse
  /-- The feature of the pnode with which a global feature came into use. -/
  opener : Nat → NodeFd ℚ
  charged : ScoreAndViolations ℚ
  refunded : ScoreAndViolations ℚ

/-- The feature of a turn that counts its users globally. -/
def FdUse.globalFd (env : Env ℚ) (u : FdUse) : Option (NodeFd ℚ) :=
  match u.m with
  | .secondOnly f _ =>
    if (env.feature f.fd).isLocal = false ∧ (env.feature f.fd).isGlobal = true then some f else none
  | .firstOnly _ => none
  | .both _ _ _ => none

namespace FdHistory

def start (s : State ℚ) : FdHistory where
  state := s
  uses := 0
  opener := fun _ => ⟨0, 0, false⟩
  charged := 0
  refunded := 0

/-- A global feature comes into use with its first user. -/
def openedBy (env : Env ℚ) (h : FdHistory) (u : FdUse) : Nat → NodeFd ℚ :=
  match u.globalFd env with
  | some f =>
    if h.state.inUseGlobally f.fd = 0 then update h.opener f.fd f else h.opener
  | none => h.opener

/-- One turn. Only what has been added is removed. -/
def step (env : Env ℚ) (h : FdHistory) : FdTurn → Option FdHistory
  | .add u =>
    match scoreFd env u.pv true u.m h.state with
    | .ok (delta, s) =>
      some { state := s, uses := u ::ₘ h.uses, opener := h.openedBy env u,
             charged := h.charged + delta, refunded := h.refunded }
    | .error _ => none
  | .remove u =>
    if u ∈ h.uses then
      match scoreFd env u.pv false u.m h.state with
      | .ok (delta, s) =>
        some { h with state := s, uses := h.uses.erase u, refunded := h.refunded + delta }
      | .error _ => none
    else
      none

end FdHistory

/-- The score and the violation of a feature that is not wanted. -/
def penalty (f : NodeFd ℚ) : ScoreAndViolations ℚ := (f.weight, if f.violateable then 1 else 0)

/-- What a turn has to meet. The use of a capacity does not fall below the limit when it is added
    to, and does not rise above it when it is subtracted from. And if a global feature of one kind
    goes out of use, it is with the penalty with which it came into use. -/
def FdHistory.Fair (env : Env ℚ) (h : FdHistory) : FdTurn → Prop
  | .add u =>
    match u.m with
    | .both d f i => (env.feature d.fd).isLocal = true → (env.feature d.fd).lAdditive = true →
        ¬(f.weight < h.state.usedLocalCapacity u.pv i ∧
          h.state.usedLocalCapacity u.pv i + d.weight ≤ f.weight)
    | .firstOnly _ => True
    | .secondOnly _ _ => True
  | .remove u =>
    match u.m with
    | .both d f i => (env.feature d.fd).isLocal = true → (env.feature d.fd).lAdditive = true →
        ¬(h.state.usedLocalCapacity u.pv i ≤ f.weight ∧
          f.weight < h.state.usedLocalCapacity u.pv i - d.weight)
    | .firstOnly _ => True
    | .secondOnly f _ => (env.feature f.fd).isLocal = false → (env.feature f.fd).isGlobal = true →
        (env.feature f.fd).gOneIsOkay ≠ (env.feature f.fd).gMoreThanOne →
        h.state.inUseGlobally f.fd = 1 → penalty f = penalty (h.opener f.fd)

instance (env : Env ℚ) (h : FdHistory) : (t : FdTurn) → Decidable (h.Fair env t)
  | .add ⟨_, .both _ _ _⟩ => inferInstanceAs (Decidable (_ = true → _ = true → ¬_))
  | .add ⟨_, .firstOnly _⟩ => isTrue trivial
  | .add ⟨_, .secondOnly _ _⟩ => isTrue trivial
  | .remove ⟨_, .both _ _ _⟩ => inferInstanceAs (Decidable (_ = true → _ = true → ¬_))
  | .remove ⟨_, .firstOnly _⟩ => isTrue trivial
  | .remove ⟨_, .secondOnly _ _⟩ => inferInstanceAs (Decidable (_ = false → _ = true → _ ≠ _ → _ → _))

/-! ## Section 3: What the users owe -/

/-- What the charges are for. -/
inductive FdAccount where
  | plain
  | shared (fd : Nat)
  | capacity (pv : PVertex) (i : Nat)
deriving DecidableEq

/-- What a user of a plain feature owes, or one that misses a feature. -/
def FdUse.plainDue (env : Env ℚ) (u : FdUse) : ScoreAndViolations ℚ :=
  match u.m with
  | .both _ _ _ => 0
  | .firstOnly d =>
    (if (env.feature d.fd).isLocal then env.score.missingLocalFeature else d.weight,
      if d.violateable then 1 else 0)
  | .secondOnly f _ =>
    if (env.feature f.fd).isLocal ∨ (env.feature f.fd).isGlobal then 0 else penalty f

/-- The users of a global feature. -/
def sharedUses (env : Env ℚ) (fd : Nat) (uses : Multiset FdUse) : Multiset (NodeFd ℚ) :=
  (uses.filterMap (FdUse.globalFd env)).filter (·.fd = fd)

/-- What the users of a global feature owe: all but the first one, only the first one, or all. -/
def sharedDue (feature : FeatureDesire) (uses : Multiset (NodeFd ℚ)) (opener : NodeFd ℚ) :
    ScoreAndViolations ℚ :=
  if uses = 0 then 0
  else if feature.gOneIsOkay then
    (uses.map penalty).sum - if feature.gMoreThanOne then 0 else penalty opener
  else if feature.gMoreThanOne then penalty opener
  else 0

/-- How much of a capacity a user takes. -/
def FdUse.amount (env : Env ℚ) (pv : PVertex) (i : Nat) (u : FdUse) : ℚ :=
  match u.m with
  | .both d _ j =>
    if (env.feature d.fd).isLocal ∧ (env.feature d.fd).lAdditive ∧ u.pv = pv ∧ j = i then d.weight
    else 0
  | .firstOnly _ => 0
  | .secondOnly _ _ => 0

/-- What is owed for a capacity that is exceeded. -/
def overDue (env : Env ℚ) (f : NodeFd ℚ) (used : ℚ) : ScoreAndViolations ℚ :=
  if f.weight < used then (env.score.overusedLocalFeature, 1) else 0

/-- What is owed on an account. Nobody owes for a limit below zero. -/
def FdHistory.due (env : Env ℚ) (h : FdHistory) : FdAccount → ScoreAndViolations ℚ
  | .plain => (h.uses.map (FdUse.plainDue env)).sum
  | .shared fd => sharedDue (env.feature fd) (sharedUses env fd h.uses) (h.opener fd)
  | .capacity pv i =>
    match (env.pg.pnode pv).features[i]? with
    | some f => overDue env f (h.state.usedLocalCapacity pv i) - overDue env f 0
    | none => 0

/-- The turn is about a feature of its pnode. -/
def FdUse.Valid (env : Env ℚ) (u : FdUse) : Prop :=
  (∀ d f i, u.m = .both d f i → (env.pg.pnode u.pv).features[i]? = some f)

/-- The invariant: the users are counted, and what has been charged and not refunded is what they owe. -/
structure FdHistory.Inv (env : Env ℚ) (h : FdHistory) : Prop where
  valid : ∀ u ∈ h.uses, u.Valid env
  inUse : ∀ fd, h.state.inUseGlobally fd = (sharedUses env fd h.uses).card
  used : ∀ pv i, h.state.usedLocalCapacity pv i = (h.uses.map (FdUse.amount env pv i)).sum
  due : SumsTo (h.due env) (h.charged - h.refunded)

/-! ## Section 4: One turn -/

theorem sharedUses_cons (env : Env ℚ) (fd : Nat) (u : FdUse) (uses : Multiset FdUse) :
    sharedUses env fd (u ::ₘ uses) =
      match u.globalFd env with
      | some f => if f.fd = fd then f ::ₘ sharedUses env fd uses else sharedUses env fd uses
      | none => sharedUses env fd uses := by
  unfold sharedUses
  cases hu : u.globalFd env with
  | none => rw [Multiset.filterMap_cons_none _ _ hu]
  | some f =>
    rw [Multiset.filterMap_cons_some _ _ _ hu]
    by_cases hf : f.fd = fd
    · simp [hf]
    · simp [hf]

theorem sharedUses_cons_of_none {env : Env ℚ} {u : FdUse} (hu : u.globalFd env = none) (fd : Nat)
    (uses : Multiset FdUse) : sharedUses env fd (u ::ₘ uses) = sharedUses env fd uses := by
  rw [sharedUses_cons, hu]

theorem sharedUses_cons_self {env : Env ℚ} {u : FdUse} {f : NodeFd ℚ} (hu : u.globalFd env = some f)
    (uses : Multiset FdUse) : sharedUses env f.fd (u ::ₘ uses) = f ::ₘ sharedUses env f.fd uses := by
  rw [sharedUses_cons, hu]
  exact if_pos rfl

theorem sharedUses_cons_of_ne {env : Env ℚ} {u : FdUse} {f : NodeFd ℚ} (hu : u.globalFd env = some f)
    {fd : Nat} (hne : fd ≠ f.fd) (uses : Multiset FdUse) :
    sharedUses env fd (u ::ₘ uses) = sharedUses env fd uses := by
  rw [sharedUses_cons, hu]
  exact if_neg (Ne.symm hne)

theorem sharedDue_cons (feature : FeatureDesire) (uses : Multiset (NodeFd ℚ)) (f opener : NodeFd ℚ) :
    sharedDue feature (f ::ₘ uses) (if uses = 0 then f else opener) =
      sharedDue feature uses opener +
        if feature.gOneIsOkay ∧ 2 ≤ uses.card + 1 then penalty f
        else if feature.gMoreThanOne ∧ uses.card + 1 = 1 then penalty f
        else 0 := by
  unfold sharedDue
  rw [if_neg (Multiset.cons_ne_zero), Multiset.map_cons, Multiset.sum_cons]
  by_cases hnone : uses = 0
  · subst hnone
    cases feature.gOneIsOkay <;> cases feature.gMoreThanOne <;> simp
  · have hcard : uses.card ≠ 0 := by simpa using hnone
    have hmany : 2 ≤ uses.card + 1 := by omega
    simp only [if_neg hnone, hmany, Nat.add_eq_right, hcard, and_true, and_false, if_false]
    cases feature.gOneIsOkay
    · cases feature.gMoreThanOne <;> simp
    · simp only [if_true]
      abel

theorem sharedDue_of_cons (feature : FeatureDesire) (uses : Multiset (NodeFd ℚ)) (f opener : NodeFd ℚ)
    (hfair : feature.gOneIsOkay ≠ feature.gMoreThanOne → uses = 0 → penalty f = penalty opener) :
    sharedDue feature uses opener =
      sharedDue feature (f ::ₘ uses) opener -
        if feature.gOneIsOkay ∧ 1 ≤ uses.card then penalty f
        else if feature.gMoreThanOne ∧ uses.card = 0 then penalty f
        else 0 := by
  unfold sharedDue
  rw [if_neg (Multiset.cons_ne_zero), Multiset.map_cons, Multiset.sum_cons]
  by_cases hnone : uses = 0
  · subst hnone
    have hlast := fun hne => hfair hne rfl
    generalize feature.gOneIsOkay = one at *
    generalize feature.gMoreThanOne = more at *
    cases one <;> cases more <;> simp_all
  · have hcard : uses.card ≠ 0 := by simpa using hnone
    have hmany : 1 ≤ uses.card := by omega
    simp only [if_neg hnone, hmany, hcard, and_true, and_false, if_false]
    cases feature.gOneIsOkay
    · cases feature.gMoreThanOne <;> simp
    · simp only [if_true]
      abel

variable {s : State ℚ}

theorem addGlobalUser_eq (env : Env ℚ) (f : NodeFd ℚ) {n : Nat} (hn : s.inUseGlobally f.fd = n) :
    addGlobalUser env f s =
      (if (env.feature f.fd).gOneIsOkay ∧ 2 ≤ n + 1 then penalty f
        else if (env.feature f.fd).gMoreThanOne ∧ n + 1 = 1 then penalty f
        else 0,
        { s with inUseGlobally := update s.inUseGlobally f.fd ((n + 1 : Nat) : Int) }) := by
  have hpenalty : ((0 + f.weight, if f.violateable then 1 else 0) : ScoreAndViolations ℚ) =
      penalty f := by rw [zero_add]; rfl
  have htwo : 2 ≤ (n : Int) + 1 ↔ 2 ≤ n + 1 := by omega
  have hone : (n : Int) + 1 = 1 ↔ n + 1 = 1 := by omega
  unfold addGlobalUser
  rw [hpenalty]
  simp only [hn, htwo, hone, Nat.cast_add, Nat.cast_one]
  split_ifs <;> rfl

theorem removeGlobalUser_eq (env : Env ℚ) (f : NodeFd ℚ) {n : Nat}
    (hn : s.inUseGlobally f.fd = ((n + 1 : Nat) : Int)) :
    removeGlobalUser env f s =
      .ok (if (env.feature f.fd).gOneIsOkay ∧ 1 ≤ n then penalty f
        else if (env.feature f.fd).gMoreThanOne ∧ n = 0 then penalty f
        else 0,
        { s with inUseGlobally := update s.inUseGlobally f.fd (n : Int) }) := by
  have hpenalty : ((0 + f.weight, if f.violateable then 1 else 0) : ScoreAndViolations ℚ) =
      penalty f := by rw [zero_add]; rfl
  have hless : ((n + 1 : Nat) : Int) - 1 = n := by omega
  have hone : 1 ≤ (n : Int) ↔ 1 ≤ n := by omega
  have hzero : (n : Int) = 0 ↔ n = 0 := by omega
  unfold removeGlobalUser
  rw [hpenalty]
  simp only [hn, hless, hone, hzero, Int.natCast_nonneg, if_true]
  split_ifs <;> rfl

theorem usedLocalCapacity_set (s : State ℚ) (pv pv' : PVertex) (i i' : Nat) (used : ℚ) :
    (setUsedLocal s pv i used).usedLocalCapacity pv' i' =
      if pv = pv' ∧ i = i' then used else s.usedLocalCapacity pv' i' := by
  unfold setUsedLocal
  dsimp only
  by_cases hpv : pv' = pv
  · subst hpv
    rw [update_self]
    by_cases hi : i' = i
    · subst hi
      simp
    · rw [update_of_ne hi, if_neg (fun h => hi h.2.symm)]
  · rw [update_of_ne hpv, if_neg (fun h => hpv h.1.symm)]

/-- What is added is charged if it does not bring the use below the limit. -/
theorem overDue_add (env : Env ℚ) (pv : PVertex) (f : NodeFd ℚ) (i : Nat) (amount : ℚ) (s : State ℚ)
    (hfair : ¬(f.weight < s.usedLocalCapacity pv i ∧
      s.usedLocalCapacity pv i + amount ≤ f.weight)) :
    overDue env f (s.usedLocalCapacity pv i + amount) =
      overDue env f (s.usedLocalCapacity pv i) + (addLocal env pv f i amount s).1 := by
  unfold addLocal overDue
  dsimp only
  rw [not_and, not_le] at hfair
  by_cases hold : f.weight < s.usedLocalCapacity pv i
  · have hno : ¬s.usedLocalCapacity pv i ≤ f.weight := not_le.mpr hold
    rw [if_pos hold, if_pos (hfair hold), if_neg (fun h => hno h.1)]
    exact (add_zero _).symm
  · have hle : s.usedLocalCapacity pv i ≤ f.weight := not_lt.mp hold
    rw [if_neg hold, zero_add]
    by_cases hnew : f.weight < s.usedLocalCapacity pv i + amount
    · rw [if_pos hnew, if_pos ⟨hle, hnew⟩]
    · rw [if_neg hnew, if_neg (fun h => hnew h.2)]
      rfl

/-- What is subtracted is refunded if it does not bring the use above the limit. -/
theorem overDue_sub (env : Env ℚ) (pv : PVertex) (f : NodeFd ℚ) (i : Nat) (amount : ℚ) (s : State ℚ)
    (hfair : ¬(s.usedLocalCapacity pv i ≤ f.weight ∧
      f.weight < s.usedLocalCapacity pv i - amount)) :
    overDue env f (s.usedLocalCapacity pv i - amount) =
      overDue env f (s.usedLocalCapacity pv i) - (subtractLocal env pv f i amount s).1 := by
  unfold subtractLocal overDue
  dsimp only
  rw [not_and, not_lt] at hfair
  by_cases hold : f.weight < s.usedLocalCapacity pv i
  · rw [if_pos hold]
    by_cases hnew : s.usedLocalCapacity pv i - amount ≤ f.weight
    · rw [if_neg (not_lt.mpr hnew), if_pos ⟨hold, hnew⟩, sub_self]
    · rw [if_pos (not_le.mp hnew), if_neg (fun h => hnew h.2)]
      exact (sub_zero _).symm
  · rw [if_neg hold, if_neg (not_lt.mpr (hfair (not_lt.mp hold))), if_neg (fun h => hold h.1)]
    exact (sub_zero _).symm

theorem amount_both {env : Env ℚ} {u : FdUse} {d f : NodeFd ℚ} {i : Nat} (hm : u.m = .both d f i)
    (hlocal : (env.feature d.fd).isLocal = true) (hadditive : (env.feature d.fd).lAdditive = true)
    (pv : PVertex) (j : Nat) : u.amount env pv j = if u.pv = pv ∧ i = j then d.weight else 0 := by
  unfold FdUse.amount
  rw [hm]
  simp [hlocal, hadditive]

section Step

variable {env : Env ℚ} {h : FdHistory} {u : FdUse}

/-- A turn that neither counts users nor takes from a capacity. -/
theorem FdHistory.Inv.addPlain (hinv : h.Inv env) (hvalid : u.Valid env)
    (hglobal : u.globalFd env = none) (hamount : ∀ pv i, u.amount env pv i = 0) :
    FdHistory.Inv env { h with
      uses := u ::ₘ h.uses, charged := h.charged + u.plainDue env } where
  valid u' hu' := by
    rcases Multiset.mem_cons.mp hu' with rfl | hu'
    · exact hvalid
    · exact hinv.valid u' hu'
  inUse fd := by
    dsimp only
    rw [sharedUses_cons_of_none hglobal]
    exact hinv.inUse fd
  used pv i := by
    dsimp only
    rw [Multiset.map_cons, Multiset.sum_cons, hamount, zero_add]
    exact hinv.used pv i
  due := by
    dsimp only
    rw [add_sub_right_comm]
    refine hinv.due.change .plain ?_ fun b hb => ?_
    · simp [FdHistory.due, add_comm]
    · cases b with
      | plain => exact absurd rfl hb
      | shared fd => simp only [FdHistory.due, sharedUses_cons_of_none hglobal]
      | capacity pv i => rfl

theorem FdHistory.Inv.addShared (hinv : h.Inv env) {f : NodeFd ℚ} {i : Nat}
    (hm : u.m = .secondOnly f i) (hglobal : u.globalFd env = some f) :
    FdHistory.Inv env { h with
      state := (addGlobalUser env f h.state).2
      uses := u ::ₘ h.uses
      opener := h.openedBy env u
      charged := h.charged + (addGlobalUser env f h.state).1 } := by
  have hcount := hinv.inUse f.fd
  have hkind : (env.feature f.fd).isLocal = false ∧ (env.feature f.fd).isGlobal = true := by
    unfold FdUse.globalFd at hglobal
    rw [hm] at hglobal
    dsimp only at hglobal
    split at hglobal
    · assumption
    · cases hglobal
  have hopener : h.openedBy env u f.fd =
      if sharedUses env f.fd h.uses = 0 then f else h.opener f.fd := by
    unfold FdHistory.openedBy
    rw [hglobal]
    dsimp only
    rw [hcount]
    simp only [Int.natCast_eq_zero, Multiset.card_eq_zero]
    split
    · exact update_self _ _ _
    · rfl
  rw [addGlobalUser_eq env f hcount]
  constructor
  · intro u' hu'
    rcases Multiset.mem_cons.mp hu' with rfl | hu'
    · intro d f' i' hboth
      rw [hm] at hboth
      cases hboth
    · exact hinv.valid u' hu'
  · intro fd
    dsimp only
    by_cases hfd : fd = f.fd
    · subst hfd
      rw [update_self, sharedUses_cons_self hglobal, Multiset.card_cons]
    · rw [update_of_ne hfd, sharedUses_cons_of_ne hglobal hfd]
      exact hinv.inUse fd
  · intro pv j
    dsimp only
    rw [Multiset.map_cons, Multiset.sum_cons, hinv.used]
    simp [FdUse.amount, hm]
  · dsimp only
    rw [add_sub_right_comm]
    refine hinv.due.change (.shared f.fd) ?_ fun b hb => ?_
    · dsimp only [FdHistory.due]
      rw [sharedUses_cons_self hglobal, hopener, sharedDue_cons]
    · cases b with
      | plain => simp [FdHistory.due, FdUse.plainDue, hm, hkind]
      | shared fd =>
        have hne : fd ≠ f.fd := fun heq => hb (by rw [heq])
        dsimp only [FdHistory.due]
        rw [sharedUses_cons_of_ne hglobal hne]
        unfold FdHistory.openedBy
        rw [hglobal]
        dsimp only
        split
        · rw [update_of_ne hne]
        · rfl
      | capacity pv i => rfl

theorem FdHistory.Inv.addCapacity (hinv : h.Inv env) (hvalid : u.Valid env) {d f : NodeFd ℚ}
    {i : Nat} (hm : u.m = .both d f i) (hlocal : (env.feature d.fd).isLocal = true)
    (hadditive : (env.feature d.fd).lAdditive = true) (hfair : ¬(f.weight < h.state.usedLocalCapacity u.pv i ∧
      h.state.usedLocalCapacity u.pv i + d.weight ≤ f.weight)) :
    FdHistory.Inv env { h with
      state := (addLocal env u.pv f i d.weight h.state).2
      uses := u ::ₘ h.uses
      charged := h.charged + (addLocal env u.pv f i d.weight h.state).1 } := by
  have hglobal : u.globalFd env = none := by
    unfold FdUse.globalFd
    rw [hm]
  have hfeature := hvalid d f i hm
  constructor
  · intro u' hu'
    rcases Multiset.mem_cons.mp hu' with rfl | hu'
    · exact hvalid
    · exact hinv.valid u' hu'
  · intro fd
    rw [sharedUses_cons_of_none hglobal]
    exact hinv.inUse fd
  · intro pv j
    rw [Multiset.map_cons, Multiset.sum_cons, ← hinv.used, amount_both hm hlocal hadditive]
    dsimp only [addLocal]
    rw [usedLocalCapacity_set]
    by_cases hsame : u.pv = pv ∧ i = j
    · obtain ⟨rfl, rfl⟩ := hsame
      rw [if_pos ⟨rfl, rfl⟩, if_pos ⟨rfl, rfl⟩, add_comm]
    · rw [if_neg hsame, if_neg hsame, zero_add]
  · dsimp only
    rw [add_sub_right_comm]
    refine hinv.due.change (.capacity u.pv i) ?_ fun b hb => ?_
    · have hused : (addLocal env u.pv f i d.weight h.state).2.usedLocalCapacity u.pv i =
          h.state.usedLocalCapacity u.pv i + d.weight := by
        dsimp only [addLocal]
        rw [usedLocalCapacity_set, if_pos ⟨rfl, rfl⟩]
      dsimp only [FdHistory.due]
      rw [hfeature, hused]
      dsimp only
      rw [overDue_add env u.pv f i d.weight h.state hfair, add_sub_right_comm]
    · cases b with
      | plain => simp [FdHistory.due, FdUse.plainDue, hm]
      | shared fd => simp only [FdHistory.due, sharedUses_cons_of_none hglobal]
      | capacity pv j =>
        have hne : ¬(u.pv = pv ∧ i = j) := fun hsame => hb (by rw [hsame.1, hsame.2])
        dsimp only [FdHistory.due, addLocal]
        rw [usedLocalCapacity_set, if_neg hne]

variable {rest : Multiset FdUse}

theorem FdHistory.Inv.valid_rest (hinv : h.Inv env)
    (hrest : h.uses = u ::ₘ rest) : ∀ u' ∈ rest, u'.Valid env := fun u' hu' =>
  hinv.valid u' (by rw [hrest]; exact Multiset.mem_cons_of_mem hu')

theorem FdHistory.Inv.removePlain (hinv : h.Inv env)
    (hrest : h.uses = u ::ₘ rest) (hglobal : u.globalFd env = none) (hamount : ∀ pv i, u.amount env pv i = 0) :
    FdHistory.Inv env { h with uses := rest, refunded := h.refunded + u.plainDue env } where
  valid := hinv.valid_rest hrest
  inUse fd := by
    have hcount := hinv.inUse fd
    rw [hrest, sharedUses_cons_of_none hglobal] at hcount
    exact hcount
  used pv i := by
    have hused := hinv.used pv i
    rw [hrest, Multiset.map_cons, Multiset.sum_cons, hamount, zero_add] at hused
    exact hused
  due := by
    dsimp only
    rw [← sub_sub, sub_eq_add_neg]
    refine hinv.due.change .plain ?_ fun b hb => ?_
    · dsimp only [FdHistory.due]
      rw [hrest, Multiset.map_cons, Multiset.sum_cons]
      abel
    · cases b with
      | plain => exact absurd rfl hb
      | shared fd =>
        dsimp only [FdHistory.due]
        rw [hrest, sharedUses_cons_of_none hglobal]
      | capacity pv i => rfl

theorem FdHistory.Inv.removeShared (hinv : h.Inv env)
    (hrest : h.uses = u ::ₘ rest) {f : NodeFd ℚ} {i : Nat} (hm : u.m = .secondOnly f i)
    (hglobal : u.globalFd env = some f) (hfair : (env.feature f.fd).gOneIsOkay ≠ (env.feature f.fd).gMoreThanOne →
      h.state.inUseGlobally f.fd = 1 → penalty f = penalty (h.opener f.fd)) :
    ∃ delta s, removeGlobalUser env f h.state = .ok (delta, s) ∧
      FdHistory.Inv env { h with state := s, uses := rest, refunded := h.refunded + delta } := by
  have hcount := hinv.inUse f.fd
  rw [hrest, sharedUses_cons_self hglobal, Multiset.card_cons] at hcount
  have hkind : (env.feature f.fd).isLocal = false ∧ (env.feature f.fd).isGlobal = true := by
    unfold FdUse.globalFd at hglobal
    rw [hm] at hglobal
    dsimp only at hglobal
    split at hglobal
    · assumption
    · cases hglobal
  refine ⟨_, _, removeGlobalUser_eq env f hcount, hinv.valid_rest hrest, fun fd => ?_, fun pv j => ?_, ?_⟩
  · dsimp only
    by_cases hfd : fd = f.fd
    · subst hfd
      rw [update_self]
    · have hother := hinv.inUse fd
      rw [hrest, sharedUses_cons_of_ne hglobal hfd] at hother
      rw [update_of_ne hfd]
      exact hother
  · have hused := hinv.used pv j
    rw [hrest, Multiset.map_cons, Multiset.sum_cons] at hused
    simpa [FdUse.amount, hm] using hused
  · dsimp only
    rw [← sub_sub, sub_eq_add_neg]
    refine hinv.due.change (.shared f.fd) ?_ fun b hb => ?_
    · dsimp only [FdHistory.due]
      rw [hrest, sharedUses_cons_self hglobal, ← sub_eq_add_neg]
      have hlast : sharedUses env f.fd rest = 0 → h.state.inUseGlobally f.fd = 1 := by
        intro hnone
        rw [hcount, hnone]
        rfl
      have hdue := sharedDue_of_cons (env.feature f.fd) (sharedUses env f.fd rest) f (h.opener f.fd)
        fun hne hnone => hfair hne (hlast hnone)
      exact hdue
    · cases b with
      | plain =>
        dsimp only [FdHistory.due]
        rw [hrest, Multiset.map_cons, Multiset.sum_cons]
        simp [FdUse.plainDue, hm, hkind]
      | shared fd =>
        have hne : fd ≠ f.fd := fun heq => hb (by rw [heq])
        dsimp only [FdHistory.due]
        rw [hrest, sharedUses_cons_of_ne hglobal hne]
      | capacity pv i => rfl

theorem FdHistory.Inv.removeCapacity (hinv : h.Inv env)
    (hrest : h.uses = u ::ₘ rest) {d f : NodeFd ℚ} {i : Nat} (hm : u.m = .both d f i)
    (hlocal : (env.feature d.fd).isLocal = true) (hadditive : (env.feature d.fd).lAdditive = true)
    (hfair : ¬(h.state.usedLocalCapacity u.pv i ≤ f.weight ∧
      f.weight < h.state.usedLocalCapacity u.pv i - d.weight)) :
    FdHistory.Inv env { h with
      state := (subtractLocal env u.pv f i d.weight h.state).2
      uses := rest
      refunded := h.refunded + (subtractLocal env u.pv f i d.weight h.state).1 } := by
  have hglobal : u.globalFd env = none := by
    unfold FdUse.globalFd
    rw [hm]
  have hvalid : u.Valid env := hinv.valid u (by rw [hrest]; exact Multiset.mem_cons_self u rest)
  have hfeature := hvalid d f i hm
  refine ⟨hinv.valid_rest hrest, fun fd => ?_, fun pv j => ?_, ?_⟩
  · have hcount := hinv.inUse fd
    rw [hrest, sharedUses_cons_of_none hglobal] at hcount
    exact hcount
  · have hused := hinv.used pv j
    rw [hrest, Multiset.map_cons, Multiset.sum_cons, amount_both hm hlocal hadditive] at hused
    dsimp only [subtractLocal]
    rw [usedLocalCapacity_set]
    by_cases hsame : u.pv = pv ∧ i = j
    · obtain ⟨rfl, rfl⟩ := hsame
      rw [if_pos ⟨rfl, rfl⟩] at hused ⊢
      rw [hused, add_sub_cancel_left]
    · rw [if_neg hsame] at hused ⊢
      rw [hused, zero_add]
  · dsimp only
    rw [← sub_sub, sub_eq_add_neg]
    refine hinv.due.change (.capacity u.pv i) ?_ fun b hb => ?_
    · have hused : (subtractLocal env u.pv f i d.weight h.state).2.usedLocalCapacity u.pv i =
          h.state.usedLocalCapacity u.pv i - d.weight := by
        dsimp only [subtractLocal]
        rw [usedLocalCapacity_set, if_pos ⟨rfl, rfl⟩]
      dsimp only [FdHistory.due]
      rw [hfeature, hused]
      dsimp only
      rw [overDue_sub env u.pv f i d.weight h.state hfair]
      abel
    · cases b with
      | plain =>
        dsimp only [FdHistory.due]
        rw [hrest, Multiset.map_cons, Multiset.sum_cons]
        simp [FdUse.plainDue, hm]
      | shared fd =>
        dsimp only [FdHistory.due]
        rw [hrest, sharedUses_cons_of_none hglobal]
      | capacity pv j =>
        have hne : ¬(u.pv = pv ∧ i = j) := fun hsame => hb (by rw [hsame.1, hsame.2])
        dsimp only [FdHistory.due, subtractLocal]
        rw [usedLocalCapacity_set, if_neg hne]

theorem scoreFd_plain {f : NodeFd ℚ} {pv : PVertex} {i : Nat} {add : Bool} {s : State ℚ}
    (hglobal : ¬((env.feature f.fd).isLocal = false ∧ (env.feature f.fd).isGlobal = true)) :
    scoreFd env pv add (.secondOnly f i) s = .ok (FdUse.plainDue env ⟨pv, .secondOnly f i⟩, s) := by
  unfold scoreFd FdUse.plainDue
  dsimp only
  cases hlocal : (env.feature f.fd).isLocal
  · have hnot : (env.feature f.fd).isGlobal = false := by simpa [hlocal] using hglobal
    simp [hnot, penalty]
  · simp

/-- **Step lemma.** A fair turn keeps the invariant, and fails no assertion. -/
theorem FdHistory.Inv.add_step (hinv : h.Inv env) (hvalid : u.Valid env) (hfair : h.Fair env (.add u)) :
    ∃ h', h.step env (.add u) = some h' ∧ h'.Inv env := by
  obtain ⟨pv, m⟩ := u
  unfold FdHistory.Fair at hfair
  cases m with
  | firstOnly d => exact ⟨_, rfl, hinv.addPlain hvalid rfl fun _ _ => rfl⟩
  | both d f i =>
    by_cases hlocal : (env.feature d.fd).isLocal = true ∧ (env.feature d.fd).lAdditive = true
    · refine ⟨_, ?_, hinv.addCapacity hvalid rfl hlocal.1 hlocal.2 (hfair hlocal.1 hlocal.2)⟩
      simp only [FdHistory.step, scoreFd, if_pos hlocal, if_true]
      rfl
    · refine ⟨_, ?_, hinv.addPlain hvalid rfl fun pv' j => ?_⟩
      · simp only [FdHistory.step, scoreFd, if_neg hlocal]
        rfl
      · unfold FdUse.amount
        exact if_neg fun h => hlocal ⟨h.1, h.2.1⟩
  | secondOnly f i =>
    by_cases hglobal : (env.feature f.fd).isLocal = false ∧ (env.feature f.fd).isGlobal = true
    · have hshared : FdUse.globalFd env ⟨pv, .secondOnly f i⟩ = some f := if_pos hglobal
      refine ⟨_, ?_, hinv.addShared rfl hshared⟩
      simp only [FdHistory.step, scoreFd, hglobal.1, hglobal.2, Bool.false_eq_true, if_false, if_true]
    · have hplain : FdUse.globalFd env ⟨pv, .secondOnly f i⟩ = none := if_neg hglobal
      have hopener : h.openedBy env ⟨pv, .secondOnly f i⟩ = h.opener := by
        unfold FdHistory.openedBy
        rw [hplain]
      refine ⟨_, ?_, hinv.addPlain hvalid hplain fun _ _ => rfl⟩
      unfold FdHistory.step
      dsimp only
      rw [scoreFd_plain hglobal, hopener]

/-- The same for a turn that removes a user. -/
theorem FdHistory.Inv.remove_step (hinv : h.Inv env) (hmem : u ∈ h.uses)
    (hfair : h.Fair env (.remove u)) : ∃ h', h.step env (.remove u) = some h' ∧ h'.Inv env := by
  obtain ⟨rest, hrest⟩ := Multiset.exists_cons_of_mem hmem
  have herase : h.uses.erase u = rest := by rw [hrest, Multiset.erase_cons_head]
  have hstep : h.step env (.remove u) =
      match scoreFd env u.pv false u.m h.state with
      | .ok (delta, s) => some { h with state := s, uses := rest, refunded := h.refunded + delta }
      | .error _ => none := by
    unfold FdHistory.step
    dsimp only
    rw [if_pos hmem, herase]
  rw [hstep]
  obtain ⟨pv, m⟩ := u
  unfold FdHistory.Fair at hfair
  cases m with
  | firstOnly d => exact ⟨_, rfl, hinv.removePlain hrest rfl fun _ _ => rfl⟩
  | both d f i =>
    by_cases hlocal : (env.feature d.fd).isLocal = true ∧ (env.feature d.fd).lAdditive = true
    · refine ⟨_, ?_, hinv.removeCapacity hrest rfl hlocal.1 hlocal.2 (hfair hlocal.1 hlocal.2)⟩
      simp only [scoreFd, if_pos hlocal, Bool.false_eq_true, if_false]
    · refine ⟨_, ?_, hinv.removePlain hrest rfl fun pv' j => ?_⟩
      · simp only [scoreFd, if_neg hlocal]
        rfl
      · unfold FdUse.amount
        exact if_neg fun h => hlocal ⟨h.1, h.2.1⟩
  | secondOnly f i =>
    by_cases hglobal : (env.feature f.fd).isLocal = false ∧ (env.feature f.fd).isGlobal = true
    · have hshared : FdUse.globalFd env ⟨pv, .secondOnly f i⟩ = some f := if_pos hglobal
      obtain ⟨delta, s, hremove, hinv'⟩ := hinv.removeShared hrest rfl hshared (hfair hglobal.1 hglobal.2)
      refine ⟨_, ?_, hinv'⟩
      simp only [scoreFd, hglobal.1, hglobal.2, Bool.false_eq_true, if_false, if_true, hremove]
    · have hplain : FdUse.globalFd env ⟨pv, .secondOnly f i⟩ = none := if_neg hglobal
      refine ⟨_, ?_, hinv.removePlain hrest hplain fun _ _ => rfl⟩
      rw [scoreFd_plain hglobal]

end Step

/-! ## Section 5: Every history -/

inductive FdCall where
  | add (vv : VVertex) (pv : PVertex)
  | remove (vv : VVertex) (pv : PVertex)

/-- What has been scored by the calls of `score_fds`. -/
structure FdScores where
  state : State ℚ
  assigned : Multiset (VVertex × PVertex)
  charged : ScoreAndViolations ℚ
  refunded : ScoreAndViolations ℚ

/-- Before the first call. -/
def FdScores.start (s : State ℚ) : FdScores := ⟨s, 0, 0, 0⟩

def FdScores.step (env : Env ℚ) (h : FdScores) : FdCall → Option FdScores
  | .add vv pv =>
    match scoreFds env vv pv true h.state with
    | .ok (sv, s) => some ⟨s, (vv, pv) ::ₘ h.assigned, h.charged + sv, h.refunded⟩
    | .error _ => none
  | .remove vv pv =>
    if (vv, pv) ∈ h.assigned then
      match scoreFds env vv pv false h.state with
      | .ok (sv, s) => some ⟨s, h.assigned.erase (vv, pv), h.charged, h.refunded + sv⟩
      | .error _ => none
    else
      none

/-- What the loop of a call goes through. -/
def fdUses (env : Env ℚ) (vv : VVertex) (pv : PVertex) : List FdUse :=
  (featureDesireSet (env.vg.vnode vv).desires (env.pg.pnode pv).features).map fun m => ⟨pv, m⟩

def FdCall.turns (env : Env ℚ) : FdCall → List FdTurn
  | .add vv pv => (fdUses env vv pv).map FdTurn.add
  | .remove vv pv => (fdUses env vv pv).map FdTurn.remove

theorem fdUses_valid {env : Env ℚ} {vv : VVertex} {pv : PVertex} : ∀ u ∈ fdUses env vv pv, u.Valid env := by
  intro u hu d f i hm
  obtain ⟨m, hmem, rfl⟩ := mem_map.mp hu
  obtain ⟨-, hindex, -⟩ := (mem_memberships (by rw [length_zipIdx]) hmem).2.2 d f i hm
  exact mem_zipIdx_iff_getElem?.mp hindex

variable {env : Env ℚ}

theorem run_add {pv : PVertex} {ms : List (Membership ℚ)} (h : FdHistory) {sv sv' : ScoreAndViolations ℚ}
    (hloop : scoreFdsLoop env pv true ms sv h.state = .ok (sv', s)) :
    ∃ h', run (FdHistory.step env) h ((ms.map fun m => (⟨pv, m⟩ : FdUse)).map FdTurn.add) = some h' ∧
      h'.state = s ∧ h'.uses = ↑(ms.map fun m => (⟨pv, m⟩ : FdUse)) + h.uses ∧
      h'.charged = h.charged + (sv' - sv) ∧ h'.refunded = h.refunded := by
  induction ms generalizing h sv with
  | nil =>
    obtain ⟨rfl, rfl⟩ := Prod.mk.inj (Except.ok.inj hloop)
    exact ⟨h, rfl, rfl, (zero_add _).symm, by simp, rfl⟩
  | cons m ms ih =>
    unfold scoreFdsLoop at hloop
    cases hfd : scoreFd env pv true m h.state with
    | error e =>
      rw [hfd] at hloop
      cases hloop
    | ok result =>
      obtain ⟨delta, s₁⟩ := result
      rw [hfd] at hloop
      change scoreFdsLoop env pv true ms (sv.1 + delta.1, sv.2 + delta.2) s₁ = .ok (sv', s) at hloop
      have hstep : h.step env (.add ⟨pv, m⟩) = some
          { state := s₁, uses := ⟨pv, m⟩ ::ₘ h.uses, opener := h.openedBy env ⟨pv, m⟩,
            charged := h.charged + delta, refunded := h.refunded } := by
        unfold FdHistory.step
        dsimp only
        rw [hfd]
      obtain ⟨h', hrun, hstate, huses, hcharged, hrefunded⟩ := ih
        { state := s₁, uses := ⟨pv, m⟩ ::ₘ h.uses, opener := h.openedBy env ⟨pv, m⟩,
          charged := h.charged + delta, refunded := h.refunded } hloop
      refine ⟨h', ?_, hstate, ?_, ?_, hrefunded⟩
      · rw [map_cons, map_cons, run_cons, hstep]
        exact hrun
      · rw [huses, map_cons, ← Multiset.cons_coe, Multiset.cons_add]
        exact Multiset.add_cons _ _ _
      · rw [hcharged]
        refine Prod.ext ?_ ?_ <;> simp <;> ring

theorem run_remove {pv : PVertex} {ms : List (Membership ℚ)} (h : FdHistory)
    {sv sv' : ScoreAndViolations ℚ} {rest : Multiset FdUse}
    (huses : h.uses = ↑(ms.map fun m => (⟨pv, m⟩ : FdUse)) + rest)
    (hloop : scoreFdsLoop env pv false ms sv h.state = .ok (sv', s)) :
    ∃ h', run (FdHistory.step env) h ((ms.map fun m => (⟨pv, m⟩ : FdUse)).map FdTurn.remove) =
        some h' ∧
      h'.state = s ∧ h'.uses = rest ∧ h'.charged = h.charged ∧
      h'.refunded = h.refunded + (sv' - sv) := by
  induction ms generalizing h sv with
  | nil =>
    obtain ⟨rfl, rfl⟩ := Prod.mk.inj (Except.ok.inj hloop)
    exact ⟨h, rfl, rfl, by simpa using huses, rfl, by simp⟩
  | cons m ms ih =>
    unfold scoreFdsLoop at hloop
    cases hfd : scoreFd env pv false m h.state with
    | error e =>
      rw [hfd] at hloop
      cases hloop
    | ok result =>
      obtain ⟨delta, s₁⟩ := result
      rw [hfd] at hloop
      change scoreFdsLoop env pv false ms (sv.1 + delta.1, sv.2 + delta.2) s₁ = .ok (sv', s) at hloop
      have hcons : h.uses =
          ⟨pv, m⟩ ::ₘ ((↑(ms.map fun m => (⟨pv, m⟩ : FdUse)) : Multiset FdUse) + rest) := by
        rw [huses, map_cons, ← Multiset.cons_coe, Multiset.cons_add]
      have hmem : (⟨pv, m⟩ : FdUse) ∈ h.uses := by
        rw [hcons]
        exact Multiset.mem_cons_self _ _
      have hstep : h.step env (.remove ⟨pv, m⟩) = some
          { h with
            state := s₁
            uses := (↑(ms.map fun m => (⟨pv, m⟩ : FdUse)) : Multiset FdUse) + rest
            refunded := h.refunded + delta } := by
        unfold FdHistory.step
        dsimp only
        rw [if_pos hmem, hfd, hcons, Multiset.erase_cons_head]
      obtain ⟨h', hrun, hstate, huses', hcharged, hrefunded⟩ := ih
        { h with
          state := s₁
          uses := (↑(ms.map fun m => (⟨pv, m⟩ : FdUse)) : Multiset FdUse) + rest
          refunded := h.refunded + delta } rfl hloop
      refine ⟨h', ?_, hstate, huses', hcharged, ?_⟩
      · rw [map_cons, map_cons, run_cons, hstep]
        exact hrun
      · rw [hrefunded]
        refine Prod.ext ?_ ?_ <;> simp <;> ring

/-- What is assigned is used. -/
def usesOf (env : Env ℚ) (assigned : Multiset (VVertex × PVertex)) : Multiset FdUse :=
  (assigned.map fun a => (↑(fdUses env a.1 a.2) : Multiset FdUse)).sum

theorem run_turns {g g' : FdScores} {h : FdHistory} {call : FdCall}
    (hstep : g.step env call = some g') (hstate : h.state = g.state)
    (huses : h.uses = usesOf env g.assigned) (hcharged : h.charged = g.charged)
    (hrefunded : h.refunded = g.refunded) :
    ∃ h', run (FdHistory.step env) h (call.turns env) = some h' ∧ h'.state = g'.state ∧
      h'.uses = usesOf env g'.assigned ∧ h'.charged = g'.charged ∧ h'.refunded = g'.refunded := by
  cases call with
  | add vv pv =>
    unfold FdScores.step at hstep
    dsimp only at hstep
    cases hfds : scoreFds env vv pv true g.state with
    | error e =>
      rw [hfds] at hstep
      cases hstep
    | ok result =>
      obtain ⟨sv, s⟩ := result
      rw [hfds] at hstep
      obtain rfl := some.inj hstep
      unfold scoreFds at hfds
      rw [← hstate] at hfds
      obtain ⟨h', hrun, hs, hu, hc, hr⟩ := run_add h hfds
      refine ⟨h', hrun, hs, ?_, ?_, hr.trans hrefunded⟩
      · rw [hu, huses]
        unfold usesOf
        rw [Multiset.map_cons, Multiset.sum_cons]
        rfl
      · rw [hc, hcharged]
        simp
  | remove vv pv =>
    unfold FdScores.step at hstep
    dsimp only at hstep
    split at hstep
    · rename_i hmem
      obtain ⟨others, hothers⟩ := Multiset.exists_cons_of_mem hmem
      cases hfds : scoreFds env vv pv false g.state with
      | error e =>
        rw [hfds] at hstep
        cases hstep
      | ok result =>
        obtain ⟨sv, s⟩ := result
        rw [hfds] at hstep
        obtain rfl := some.inj hstep
        unfold scoreFds at hfds
        rw [← hstate] at hfds
        have huses' : h.uses = ↑(fdUses env vv pv) + usesOf env others := by
          rw [huses, hothers]
          unfold usesOf
          rw [Multiset.map_cons, Multiset.sum_cons]
        obtain ⟨h', hrun, hs, hu, hc, hr⟩ := run_remove h huses' hfds
        refine ⟨h', hrun, hs, ?_, hc.trans hcharged, ?_⟩
        · rw [hu, hothers, Multiset.erase_cons_head]
        · rw [hr, hrefunded]
          simp
    · cases hstep

/-- **Run lemma.** Calls are a run of their turns. -/
theorem run_calls {calls : List FdCall} {g g' : FdScores} (h : FdHistory)
    (hrun : run (FdScores.step env) g calls = some g') (hstate : h.state = g.state)
    (huses : h.uses = usesOf env g.assigned) (hcharged : h.charged = g.charged)
    (hrefunded : h.refunded = g.refunded) :
    ∃ h', run (FdHistory.step env) h (calls.flatMap (FdCall.turns env)) = some h' ∧
      h'.uses = usesOf env g'.assigned ∧ h'.charged = g'.charged ∧ h'.refunded = g'.refunded := by
  induction calls generalizing g h with
  | nil =>
    obtain rfl : g = g' := some.inj hrun
    exact ⟨h, rfl, huses, hcharged, hrefunded⟩
  | cons call calls ih =>
    rw [run_cons, bind_eq_some_iff] at hrun
    obtain ⟨g₁, hstep, hrun⟩ := hrun
    obtain ⟨h₁, hrun₁, hs₁, hu₁, hc₁, hr₁⟩ := run_turns hstep hstate huses hcharged hrefunded
    obtain ⟨h', hrun', hrest⟩ := ih h₁ hrun hs₁ hu₁ hc₁ hr₁
    refine ⟨h', ?_, hrest⟩
    rw [flatMap_cons, run_append, hrun₁]
    exact hrun'

theorem turns_valid (env : Env ℚ) (calls : List FdCall) :
    ∀ t ∈ calls.flatMap (FdCall.turns env), ∀ u, t = .add u → u.Valid env := by
  intro t ht u hu
  obtain ⟨call, -, hmem⟩ := mem_flatMap.mp ht
  cases call with
  | add vv pv =>
    obtain ⟨u', hu', rfl⟩ := mem_map.mp hmem
    obtain rfl := FdTurn.add.inj hu
    exact fdUses_valid u' hu'
  | remove vv pv =>
    obtain ⟨u', -, rfl⟩ := mem_map.mp hmem
    cases hu

/-- Nobody uses a feature. -/
def FeaturesUnused (s : State ℚ) : Prop :=
  (∀ fd, s.inUseGlobally fd = 0) ∧ ∀ pv i, s.usedLocalCapacity pv i = 0

theorem inv_start (hunused : FeaturesUnused s) : (FdHistory.start s).Inv env where
  valid u hu := absurd hu (Multiset.notMem_zero u)
  inUse fd := hunused.1 fd
  used pv i := hunused.2 pv i
  due := by
    have hdue : (FdHistory.start s).due env = fun _ => 0 := by
      funext a
      cases a with
      | plain => rfl
      | shared fd => rfl
      | capacity pv i =>
        dsimp only [FdHistory.due, FdHistory.start]
        rw [hunused.2]
        split
        · exact sub_self _
        · rfl
    have hzero : (FdHistory.start s).charged - (FdHistory.start s).refunded = 0 := sub_self 0
    rw [hdue, hzero]
    exact sumsTo_zero

/-- **Fair runs.** What has been charged and not refunded is what the users owe. -/
theorem run_fair (hunused : FeaturesUnused s) {turns : List FdTurn} {h : FdHistory}
    (hvalid : ∀ t ∈ turns, ∀ u, t = .add u → u.Valid env)
    (hfair : Meets (FdHistory.step env) (FdHistory.Fair env) (FdHistory.start s) turns)
    (hrun : run (FdHistory.step env) (FdHistory.start s) turns = some h) : h.Inv env := by
  have hok := meets_and hfair (meets_of_forall hvalid (FdHistory.start s))
  refine run_inv (FdHistory.Inv env) ?_ (inv_start hunused) hok hrun
  intro h t h' hinv hok hstep
  cases t with
  | add u =>
    obtain ⟨h'', hstep', hinv'⟩ := hinv.add_step (hok.2 u rfl) hok.1
    obtain rfl := some.inj (hstep'.symm.trans hstep)
    exact hinv'
  | remove u =>
    by_cases hmem : u ∈ h.uses
    · obtain ⟨h'', hstep', hinv'⟩ := hinv.remove_step hmem hok.1
      obtain rfl := some.inj (hstep'.symm.trans hstep)
      exact hinv'
    · unfold FdHistory.step at hstep
      dsimp only at hstep
      rw [if_neg hmem] at hstep
      cases hstep

/-- Nobody owes anything when nothing is used. -/
theorem FdHistory.Inv.settled {h : FdHistory} (hinv : h.Inv env) (hnone : h.uses = 0) :
    h.charged = h.refunded := by
  have hdue : ∀ a, h.due env a = 0 := by
    intro a
    cases a with
    | plain =>
      dsimp only [FdHistory.due]
      rw [hnone]
      rfl
    | shared fd =>
      dsimp only [FdHistory.due]
      rw [hnone]
      rfl
    | capacity pv i =>
      have hused := hinv.used pv i
      rw [hnone] at hused
      dsimp only [FdHistory.due]
      rw [hused]
      split
      · exact sub_self _
      · rfl
  exact sub_eq_zero.mp (hinv.due.eq_zero hdue)

/-- Over sorted lists the iterator comes to every name of the union once exactly if no name is in
    a list twice. And whenever all that has been assigned is unassigned again, in a run of fair
    turns, as much has been refunded as has been charged. -/
theorem features_conserved (env : Env ℚ)
    (hdesires : ∀ vv, SortedFds (env.vg.vnode vv).desires)
    (hfeatures : ∀ pv, SortedFds (env.pg.pnode pv).features)
    {s : State ℚ} (hunused : FeaturesUnused s) :
    (∀ vv pv, VisitsUnion (env.vg.vnode vv).desires (env.pg.pnode pv).features ↔
      (names (env.vg.vnode vv).desires).Nodup ∧ (names (env.pg.pnode pv).features).Nodup) ∧
    ∀ calls g, run (FdScores.step env) (FdScores.start s) calls = some g →
      Meets (FdHistory.step env) (FdHistory.Fair env) (FdHistory.start s)
        (calls.flatMap (FdCall.turns env)) →
      g.assigned = 0 → g.charged = g.refunded := by
  refine ⟨fun vv pv => visitsUnion_iff (hdesires vv) (hfeatures pv), fun calls g hrun hfair hnone => ?_⟩
  obtain ⟨h, hturns, huses, hcharged, hrefunded⟩ :=
    run_calls (FdHistory.start s) hrun rfl rfl rfl rfl
  have hinv := run_fair hunused (turns_valid env calls) hfair hturns
  rw [hnone] at huses
  rw [← hcharged, ← hrefunded]
  exact hinv.settled huses

/-- Two pnodes of one site, of which one is liked less. -/
def oneSite : Env ℚ :=
  { twoNodes with
    pg :=
      { twoNodes.pg with
        pnode := fun p =>
          { twoNodes.pg.pnode p with features := [⟨0, if p = 1 then 2 else 3, true⟩] }
        switches_isSwitch := by simp [twoNodes] }
    feature := fun _ => ⟨true, true, false, false, false⟩ }

theorem oneSite_unused : FeaturesUnused (State.parsed oneSite) := ⟨fun _ => rfl, fun _ _ => rfl⟩

/-- The second user is charged 3. If the first one goes first, 2 is refunded. -/
theorem oneSite_unsettled : ∃ g, run (FdScores.step oneSite) (FdScores.start (State.parsed oneSite))
      [.add 1 1, .add 2 2, .remove 1 1, .remove 2 2] = some g ∧
    g.assigned = 0 ∧ g.charged = (3, 1) ∧ g.refunded = (2, 1) := by
  refine ⟨_, rfl, ?_, ?_, ?_⟩
  · decide
  · decide +kernel
  · decide +kernel

/-- The last user goes first. -/
def lastOutFirst : List FdCall := [.add 1 1, .add 2 2, .remove 2 2, .remove 1 1]

theorem features_conserved_oneSite : ∃ g,
    run (FdScores.step oneSite) (FdScores.start (State.parsed oneSite)) lastOutFirst = some g ∧
    g.charged = (3, 1) ∧ g.charged = g.refunded := by
  have hall := (features_conserved oneSite (fun _ => List.Pairwise.nil)
    (fun _ => pairwise_singleton _ _) oneSite_unused).2 lastOutFirst
  refine ⟨_, rfl, by decide +kernel, hall _ rfl ?_ ?_⟩
  · decide +kernel
  · decide

end Emulab.Assign
