import Emulab.Assign.PclassLists
import Emulab.Lib.Machine
import Mathlib.Data.String.Basic

/-! # Where a pnode can be found

  A pnode that several vnodes can be mapped to may have a pclass of its own,
  which is enabled while it hosts one. It should be found either there or in
  its normal pclass. This fails when one of several vnodes is removed from it:
  `pclass_unset` puts it back into the normal pclass, but disables its own one
  only if the total load is 1.
-/

namespace Emulab.Assign

open Machine Outcome List Option

variable {R : Type}

/-! ## Section 1: Availability -/

/-- A pnode can be found in its own pclass. -/
def InOwnClass (env : Env R) (s : State R) (p : PVertex) : Prop :=
  ∃ o, (env.pg.pnode p).myOwnClass = some o ∧ (s.pclass o).disabled = false ∧ ∃ type, Listed s.pclass o type p

/-- It can be found in another one. -/
def InOtherClass (env : Env R) (s : State R) (p : PVertex) : Prop :=
  ∃ c type, (env.pg.pnode p).myOwnClass ≠ some c ∧ Listed s.pclass c type p

/-- A slot is free of a type that could be used. -/
def HasFreeSlot (env : Env R) (s : State R) (p : PVertex) : Prop :=
  ∃ type tr, (env.pg.pnode p).findType type = some tr ∧ (s.pnode p).load type < tr.maxLoad ∧
    (tr.staticType = true ∨ (s.pnode p).typed = false ∨ type = (s.pnode p).currentType)

/-- What `assert_own_class_invariant` checks, except that a full pnode need not be found. -/
structure Available (env : Env R) (s : State R) (p : PVertex) : Prop where
  one : ¬(InOwnClass env s p ∧ InOtherClass env s p)
  found : HasFreeSlot env s p → InOwnClass env s p ∨ InOtherClass env s p

def HasStaticType (env : Env R) (p : PVertex) : Prop :=
  ∃ type tr, (env.pg.pnode p).findType type = some tr ∧ tr.staticType = true

section

variable {env : Env R} {vv : VVertex} {pv : PVertex} {s s' : State R} {tr : TypeRecord}

theorem inOwnClass_iff (hinv : PclassInv env s) {p : PVertex} : InOwnClass env s p ↔
      ∃ o, (env.pg.pnode p).myOwnClass = some o ∧ (s.pclass o).disabled = false := by
  constructor
  · exact fun ⟨o, ho, henabled, _⟩ => ⟨o, ho, henabled⟩
  · exact fun ⟨o, ho, henabled⟩ => ⟨o, ho, henabled, hinv.own p o ho⟩

theorem inOtherClass_iff (hgen : GeneratedPclasses env) (hinv : PclassInv env s) {p : PVertex} {c : Nat}
    (hclass : (env.pg.pnode p).myClass = some c) : InOtherClass env s p ↔ ∃ type, Listed s.pclass c type p := by
  constructor
  · rintro ⟨c', type, hne, hl⟩
    rcases hinv.members c' type p hl with hc | ho
    · obtain rfl := some.inj (hclass.symm.trans hc)
      exact ⟨type, hl⟩
    · exact absurd ho hne
  · exact fun ⟨type, hl⟩ => ⟨c, type, fun ho => hgen.own_ne p p c ho hclass, hl⟩

theorem PclassInv.inOtherClass_of_static (hgen : GeneratedPclasses env) (hinv : PclassInv env s)
    {p : PVertex} {c : Nat} (hclass : (env.pg.pnode p).myClass = some c)
    (hstatic : HasStaticType env p) : InOtherClass env s p := by
  obtain ⟨type, tr, hfind, hs⟩ := hstatic
  exact (inOtherClass_iff hgen hinv hclass).mpr ⟨type, hinv.static p c hclass type tr hfind hs⟩

theorem AddsNode.disabled (hgen : GeneratedPclasses env) (hinv : PclassInv env s)
    (h : AddsNode env vv pv s s' tr) (o : Nat) : (s'.pclass o).disabled =
      if (env.pg.pnode pv).myOwnClass = some o ∧ tr.staticType = false then false
      else (s.pclass o).disabled := by
  rcases h.pclass_cases with ⟨heq, hnot⟩ | ⟨hdynamic, c, hclass, hsets⟩
  · rw [heq, if_neg]
    rintro ⟨ho, hdynamic⟩
    rcases hnot with hstatic | hnone
    · rw [hstatic] at hdynamic
      cases hdynamic
    · obtain ⟨-, -, c, hclass⟩ := hgen.own pv o ho
      rw [hnone] at hclass
      cases hclass
  · have hlist : ∃ m ∈ (s.pclass c).members, m.1 = (s'.pnode pv).currentType := by
      rw [(h.dynamic hdynamic fun ht => (hinv.typed pv ht).1).2.1]
      have hhas := (hinv.hasList c _).mpr (hgen.hasList pv c hclass (s.vnode vv).type (by simp [h.record]))
      obtain ⟨m, hm, hkey⟩ := mem_map.mp hhas
      exact ⟨m, hm, hkey⟩
    rw [hsets.disabled]
    simp only [hlist, hdynamic]

theorem RemovesNode.disabled (hgen : GeneratedPclasses env) {type : String} {pc : Nat → Pclass}
    (h : RemovesNode env vv s s' type tr pc) (o : Nat) : (s'.pclass o).disabled =
      if (env.pg.pnode (s.vnode vv).assignment).myOwnClass = some o ∧ tr.staticType = false ∧
        (s.pnode (s.vnode vv).assignment).totalLoad = 1 then true else (s.pclass o).disabled := by
  have hreset : (s'.pclass o).disabled = (pc o).disabled := by
    by_cases hzero : (s.pnode (s.vnode vv).assignment).totalLoad - (env.vg.vnode vv).typecount = 0
    · obtain ⟨c, -, heq⟩ := h.resets hzero
      rw [heq]
      unfold resetMaps
      by_cases hc : o = c
      · subst hc
        simp
      · simp [hc]
    · rw [h.stays hzero]
  rw [hreset]
  cases hclass : (env.pg.pnode (s.vnode vv).assignment).myClass with
  | none =>
    rw [h.same (Or.inr hclass), if_neg]
    rintro ⟨ho, -⟩
    obtain ⟨-, -, c, hc⟩ := hgen.own _ o ho
    rw [hclass] at hc
    cases hc
  | some c =>
    cases hstatic : tr.staticType with
    | true => simp [h.same (Or.inl hstatic)]
    | false =>
      rw [(h.unsets hstatic c hclass).disabled]
      simp

theorem available_congr {p : PVertex} (hpnode : s'.pnode p = s.pnode p)
    (hlisted : ∀ c type, Listed s'.pclass c type p ↔ Listed s.pclass c type p)
    (hdisabled : ∀ o, (env.pg.pnode p).myOwnClass = some o →
      (s'.pclass o).disabled = (s.pclass o).disabled) : Available env s' p ↔ Available env s p := by
  have hown : InOwnClass env s' p ↔ InOwnClass env s p := by
    unfold InOwnClass
    refine exists_congr fun o => and_congr_right fun ho => ?_
    rw [hdisabled o ho]
    simp only [hlisted]
  have hother : InOtherClass env s' p ↔ InOtherClass env s p := by
    unfold InOtherClass
    simp only [hlisted]
  have hslot : HasFreeSlot env s' p ↔ HasFreeSlot env s p := by
    unfold HasFreeSlot
    rw [hpnode]
  constructor
  · exact fun h => ⟨by rw [← hown, ← hother]; exact h.one, by rw [← hslot, ← hown, ← hother]; exact h.found⟩
  · exact fun h => ⟨by rw [hown, hother]; exact h.one, by rw [hslot, hown, hother]; exact h.found⟩

theorem available_iff_of_other {p : PVertex} (h : InOtherClass env s p) :
    Available env s p ↔ ¬InOwnClass env s p :=
  ⟨fun ha hown => ha.one ⟨hown, h⟩, fun hnot => ⟨fun hb => hnot hb.1, fun _ => Or.inr h⟩⟩

/-- What `add_node` has to meet: a pnode with its own pclass has no static types, and another one
    that has none has not been taken out of the list of its type while slots are free. -/
def AddHandled (env : Env R) (vv : VVertex) (pv : PVertex) (s : State R) : Prop :=
  ∀ c tr, (env.pg.pnode pv).myClass = some c →
    (env.pg.pnode pv).findType (s.vnode vv).type = some tr → tr.staticType = false →
    ((s.pnode pv).typed = true → (s.pnode pv).currentType = (s.vnode vv).type) →
    if (env.pg.pnode pv).myOwnClass.isSome = true then ¬HasStaticType env pv
    else HasStaticType env pv ∨ Listed s.pclass c (s.vnode vv).type pv ∨
      tr.maxLoad ≤ (s.pnode pv).load (s.vnode vv).type + (env.vg.vnode vv).typecount

/-- What `remove_node` has to meet: the own pclass of the pnode is disabled, or its total load
    says that the vnode is the last one. -/
def RemoveHandled (env : Env R) (vv : VVertex) (s : State R) : Prop :=
  isDynamic env (s.vnode vv).assignment (s.vnode vv).type = true →
    ∀ o, (env.pg.pnode (s.vnode vv).assignment).myOwnClass = some o →
      (s.pclass o).disabled = true ∨ (s.pnode (s.vnode vv).assignment).totalLoad = 1

end

section

variable {env : Env R} {vv : VVertex} {pv : PVertex} {s s' : State R} {tr : TypeRecord}

/-- What is available when a vnode has been mapped to a dynamic type. -/
theorem AddsNode.inOtherClass_iff (hgen : GeneratedPclasses env) (hinv : PclassInv env s)
    (hvv : vv ∈ env.vg.vertices) (h : AddsNode env vv pv s s' tr)
    (hdynamic : tr.staticType = false) {c : Nat} (hclass : (env.pg.pnode pv).myClass = some c) :
    InOtherClass env s' pv ↔ HasStaticType env pv ∨ (env.pg.pnode pv).myOwnClass = none ∧
      (s'.pnode pv).load (s.vnode vv).type ≠ tr.maxLoad ∧ Listed s.pclass c (s.vnode vv).type pv := by
  have hinv' := hinv.add hgen hvv h
  obtain ⟨-, hlist, hlisted⟩ := h.lists hinv.lists fun ht => (hinv.typed pv ht).1
  obtain ⟨htyped, hcurrent, -⟩ := h.dynamic hdynamic fun ht => (hinv.typed pv ht).1
  have herase : SetErases env pv (s'.pnode pv) (s.vnode vv).type ↔
      (s'.pnode pv).load (s.vnode vv).type = tr.maxLoad ∨ (env.pg.pnode pv).myOwnClass.isSome = true := by
    unfold SetErases
    rw [hcurrent, if_pos rfl, h.record]
    simp
  rw [Assign.inOtherClass_iff hgen hinv' hclass]
  constructor
  · rintro ⟨type, hl⟩
    by_cases htype : type = (s.vnode vv).type
    · subst htype
      obtain ⟨hl, hkept⟩ := (hlisted c _ pv).mp hl
      have hnot : ¬SetErases env pv (s'.pnode pv) (s.vnode vv).type :=
        fun he => hkept ⟨hdynamic, rfl, hclass, he⟩
      rw [herase] at hnot
      exact Or.inr ⟨by simpa using fun ho => hnot (Or.inr ho), fun hfull => hnot (Or.inl hfull), hl⟩
    · -- the list of another type is that of a static one
      left
      obtain ⟨hl, hkept⟩ := (hlisted c type pv).mp hl
      by_contra hnone
      have hnot : ¬SetErases env pv (s'.pnode pv) type := fun he => hkept ⟨hdynamic, rfl, hclass, he⟩
      obtain ⟨c', hc', hsets⟩ : ∃ c', (env.pg.pnode pv).myClass = some c' ∧
          SetsPclass env pv c' (s'.pnode pv) s.pclass s'.pclass :=
        ⟨c, hclass, h.sets hdynamic c hclass⟩
      obtain rfl := some.inj (hclass.symm.trans hc')
      obtain ⟨m, hm, rfl, -⟩ := hl
      obtain ⟨m', -, hset⟩ := hsets.lists m hm
      unfold pclassSetMember at hset
      rw [hcurrent, if_neg htype] at hset
      cases hfind : (env.pg.pnode pv).findType m.1 with
      | none =>
        rw [hfind] at hset
        cases hset
      | some tr' =>
        cases hstatic : tr'.staticType with
        | true => exact hnone ⟨m.1, tr', hfind, hstatic⟩
        | false =>
          refine hnot ?_
          unfold SetErases
          rw [hcurrent, if_neg htype]
          exact ⟨tr', hfind, hstatic⟩
  · rintro (⟨type, tr', hfind, hstatic⟩ | ⟨hown, hroom, hl⟩)
    · exact ⟨type, hinv'.static pv c hclass type tr' hfind hstatic⟩
    · refine ⟨_, (hlisted c _ pv).mpr ⟨hl, fun ⟨_, _, _, he⟩ => ?_⟩⟩
      rcases herase.mp he with hfull | ho
      · exact hroom hfull
      · rw [hown] at ho
        cases ho

/-- **Step lemma** for `add_node`. -/
theorem AddsNode.available_iff (hgen : GeneratedPclasses env) (hinv : PclassInv env s)
    (hvv : vv ∈ env.vg.vertices) (h : AddsNode env vv pv s s' tr)
    (hbefore : ∀ p c, (env.pg.pnode p).myClass = some c → Available env s p) :
    (∀ p c, (env.pg.pnode p).myClass = some c → Available env s' p) ↔ AddHandled env vv pv s := by
  have hinv' := hinv.add hgen hvv h
  obtain ⟨-, -, hlisted⟩ := h.lists hinv.lists fun ht => (hinv.typed pv ht).1
  have hothers : ∀ p, p ≠ pv → (Available env s' p ↔ Available env s p) := by
    intro p hp
    refine available_congr (h.pnode_of_ne hp) (fun c type => ?_) fun o ho => ?_
    · rw [hlisted]
      exact and_iff_left fun he => hp he.2.1
    · rw [h.disabled hgen hinv, if_neg]
      exact fun ho' => hp (hgen.own_inj p pv o ho ho'.1)
  have hhere : (∀ p c, (env.pg.pnode p).myClass = some c → Available env s' p) ↔
      ∀ c, (env.pg.pnode pv).myClass = some c → Available env s' pv := by
    refine ⟨fun hall c hc => hall pv c hc, fun hpv p c hc => ?_⟩
    by_cases hp : p = pv
    · subst hp
      exact hpv c hc
    · exact (hothers p hp).mpr (hbefore p c hc)
  rw [hhere]
  unfold AddHandled
  refine forall_congr' fun c => ?_
  cases hstatic : tr.staticType with
  | true =>
    -- it stays where it is found for its static types
    refine iff_of_true (fun hclass => ?_) fun tr' _ hfind hdynamic => ?_
    · have hhas : HasStaticType env pv := ⟨_, tr, h.record, hstatic⟩
      refine (available_iff_of_other (hinv'.inOtherClass_of_static hgen hclass hhas)).mpr ?_
      rw [inOwnClass_iff hinv']
      rintro ⟨o, ho, henabled⟩
      rw [h.disabled hgen hinv, if_neg (by simp [hstatic])] at henabled
      exact (available_iff_of_other (hinv.inOtherClass_of_static hgen hclass hhas)).mp
        (hbefore pv c hclass) ((inOwnClass_iff hinv).mpr ⟨o, ho, henabled⟩)
    · rw [h.record] at hfind
      obtain rfl := some.inj hfind
      rw [hstatic] at hdynamic
      cases hdynamic
  | false =>
    obtain ⟨htyped, hcurrent, -⟩ := h.dynamic hstatic fun ht => (hinv.typed pv ht).1
    have hload : (s'.pnode pv).load (s.vnode vv).type =
        (s.pnode pv).load (s.vnode vv).type + (env.vg.vnode vv).typecount := by
      rw [h.pnode, Function.update_self]
      simp [PnodeState.host]
    have hcond : (∀ tr', (env.pg.pnode pv).myClass = some c →
        (env.pg.pnode pv).findType (s.vnode vv).type = some tr' → tr'.staticType = false →
        ((s.pnode pv).typed = true → (s.pnode pv).currentType = (s.vnode vv).type) →
        if (env.pg.pnode pv).myOwnClass.isSome = true then ¬HasStaticType env pv
        else HasStaticType env pv ∨ Listed s.pclass c (s.vnode vv).type pv ∨
          tr'.maxLoad ≤ (s.pnode pv).load (s.vnode vv).type + (env.vg.vnode vv).typecount) ↔
        ((env.pg.pnode pv).myClass = some c →
          if (env.pg.pnode pv).myOwnClass.isSome = true then ¬HasStaticType env pv
          else HasStaticType env pv ∨ Listed s.pclass c (s.vnode vv).type pv ∨
            tr.maxLoad ≤ (s'.pnode pv).load (s.vnode vv).type) := by
      rw [hload]
      constructor
      · exact fun hall hclass => hall tr hclass h.record hstatic (h.type hstatic)
      · intro hone tr' hclass hfind _ _
        rw [h.record] at hfind
        obtain rfl := some.inj hfind
        exact hone hclass
    rw [hcond]
    refine forall_congr' fun hclass => ?_
    have hother := h.inOtherClass_iff hgen hinv hvv hstatic hclass
    cases hown : (env.pg.pnode pv).myOwnClass with
    | some o =>
      have hin : InOwnClass env s' pv := by
        refine (inOwnClass_iff hinv').mpr ⟨o, hown, ?_⟩
        rw [h.disabled hgen hinv, if_pos ⟨hown, hstatic⟩]
      rw [hown] at hother
      simp only [isSome_some, if_true]
      rw [← show InOtherClass env s' pv ↔ HasStaticType env pv by simpa using hother]
      exact ⟨fun ha ho => ha.one ⟨hin, ho⟩, fun hnot => ⟨fun hb => hnot hb.2, fun _ => Or.inl hin⟩⟩
    | none =>
      have hout : ¬InOwnClass env s' pv := by
        rintro ⟨o, ho, -⟩
        rw [hown] at ho
        cases ho
      rw [hown] at hother
      simp only [isSome_none, Bool.false_eq_true, if_false]
      simp only [true_and] at hother
      constructor
      · intro ha
        by_contra hnot
        simp only [not_or, not_le] at hnot
        have hslot : HasFreeSlot env s' pv := ⟨_, tr, h.record, hnot.2.2, Or.inr (Or.inr hcurrent.symm)⟩
        rcases hother.mp ((ha.found hslot).resolve_left hout) with hs | ⟨-, hl⟩
        · exact hnot.1 hs
        · exact hnot.2.1 hl
      · intro hok
        refine ⟨fun hb => hout hb.1, fun hfree => Or.inr ?_⟩
        obtain ⟨type, tr', hfind, hroom, husable⟩ := hfree
        rw [hother]
        rcases husable with hs | hu | hc
        · exact Or.inl ⟨type, tr', hfind, hs⟩
        · rw [htyped] at hu
          cases hu
        · rw [hc, hcurrent] at hfind hroom
          obtain rfl := some.inj (h.record.symm.trans hfind)
          rcases hok with hs | hl | hfull
          · exact Or.inl hs
          · exact Or.inr ⟨by omega, hl⟩
          · omega

/-- **Step lemma** for `remove_node`. -/
theorem RemovesNode.available_iff (hgen : GeneratedPclasses env) (hinv : PclassInv env s)
    (hvv : vv ∈ env.vg.vertices) {type : String} {pc : Nat → Pclass} (h : RemovesNode env vv s s' type tr pc)
    (hbefore : ∀ p c, (env.pg.pnode p).myClass = some c → Available env s p) :
    (∀ p c, (env.pg.pnode p).myClass = some c → Available env s' p) ↔ RemoveHandled env vv s := by
  have hinv' := hinv.remove hvv h
  obtain ⟨-, hlist, hlisted⟩ := h.lists hinv.lists
  obtain ⟨rfl, hfind⟩ := hinv.recordOf h.assigned h.record
  have hothers : ∀ p, p ≠ (s.vnode vv).assignment → (Available env s' p ↔ Available env s p) := by
    intro p hp
    refine available_congr (h.pnode_of_ne hp) (fun c type => ?_) fun o ho => ?_
    · rw [hlisted]
      exact or_iff_left fun hb => hp hb.1
    · rw [h.disabled hgen, if_neg]
      exact fun ho' => hp (hgen.own_inj p _ o ho ho'.1)
  have hhere : (∀ p c, (env.pg.pnode p).myClass = some c → Available env s' p) ↔
      ∀ c, (env.pg.pnode (s.vnode vv).assignment).myClass = some c → Available env s' (s.vnode vv).assignment := by
    refine ⟨fun hall c hc => hall _ c hc, fun hpv p c hc => ?_⟩
    by_cases hp : p = (s.vnode vv).assignment
    · subst hp
      exact hpv c hc
    · exact (hothers p hp).mpr (hbefore p c hc)
  rw [hhere]
  have hdynamic : isDynamic env (s.vnode vv).assignment (s.vnode vv).type = !tr.staticType := by
    unfold isDynamic
    rw [hfind]
  unfold RemoveHandled
  rw [hdynamic]
  cases hclass : (env.pg.pnode (s.vnode vv).assignment).myClass with
  | none =>
    refine iff_of_true (fun c hc => nomatch hc) fun _ o ho => ?_
    obtain ⟨-, -, c, hc⟩ := hgen.own _ o ho
    rw [hclass] at hc
    cases hc
  | some c =>
    have hother : InOtherClass env s' (s.vnode vv).assignment := by
      cases hstatic : tr.staticType with
      | true => exact hinv'.inOtherClass_of_static hgen hclass ⟨_, tr, hfind, hstatic⟩
      | false =>
        refine (inOtherClass_iff hgen hinv' hclass).mpr ?_
        -- back in the list of its type, or in all of them if it has none
        cases ht : (s.pnode (s.vnode vv).assignment).typed with
        | true =>
          obtain ⟨-, tr', hfind', -⟩ := hinv.typed _ ht
          have hhas := (hinv.hasList c _).mpr (hgen.hasList _ c hclass _ (by rw [hfind']; rfl))
          exact ⟨_, (hlisted c _ _).mpr (Or.inr ⟨rfl, hclass, hhas, Or.inr ⟨hstatic, rfl⟩⟩)⟩
        | false =>
          have hhas := (hinv.hasList c _).mpr (hgen.hasList _ c hclass _ (by rw [hfind]; rfl))
          exact ⟨_, (hlisted c _ _).mpr (Or.inl (hinv.untyped _ c hclass ht _ hhas))⟩
    have hone : (∀ c', some c = some c' → Available env s' (s.vnode vv).assignment) ↔
        ¬InOwnClass env s' (s.vnode vv).assignment := by
      rw [← available_iff_of_other hother]
      exact ⟨fun hall => hall c rfl, fun ha _ _ => ha⟩
    rw [hone, inOwnClass_iff hinv']
    simp only [h.disabled hgen]
    cases hstatic : tr.staticType with
    | true =>
      refine iff_of_true ?_ fun hd => by simp at hd
      rintro ⟨o, ho, henabled⟩
      simp only [Bool.true_eq_false, false_and, and_false, if_false] at henabled
      exact (available_iff_of_other (hinv.inOtherClass_of_static hgen hclass ⟨_, tr, hfind, hstatic⟩)).mp
        (hbefore _ c hclass) ((inOwnClass_iff hinv).mpr ⟨o, ho, henabled⟩)
    | false =>
      simp only [not_exists, not_and, Bool.not_false, true_and, forall_true_left]
      refine forall_congr' fun o => forall_congr' fun ho => ?_
      by_cases hone : (s.pnode (s.vnode vv).assignment).totalLoad = 1
      · simp [ho, hone]
      · simp [hone]

end

/-! ## Section 2: Runs -/

/-- A call for a vnode of the graph. -/
inductive NodeCall (env : Env R) where
  | add (vv : VVertex) (hvv : vv ∈ env.vg.vertices) (type : Option String) (pv : PVertex)
      (deterministic isFixed skipLinks : Bool) (random : VEdge → Nat)
  | remove (vv : VVertex) (hvv : vv ∈ env.vg.vertices)

section

variable {env : Env R} {vv : VVertex} {s : State R}

/-- The type of a vnode that is not assigned does not matter. -/
theorem PclassInv.chooseType (hinv : PclassInv env s) (hfree : (s.vnode vv).assigned = false)
    (type : Option String) : PclassInv env (s.chooseType vv type) := by
  have hmapped := mappedVnodes_chooseType env hfree type
  constructor
  case hasType =>
    intro v hv
    rw [chooseType_assigned] at hv
    have hne : v ≠ vv := by
      rintro rfl
      rw [hfree] at hv
      cases hv
    rw [chooseType_of_ne vv type s hne]
    exact hinv.hasType v hv
  case total =>
    intro p
    unfold hosted
    rw [hmapped, chooseType_pnode]
    exact hinv.total p
  case empty =>
    intro p hempty
    unfold hosted at hempty
    rw [hmapped] at hempty
    rw [chooseType_pnode]
    exact hinv.empty p hempty
  case used =>
    intro c
    unfold dynamicVnodes
    rw [hmapped, chooseType_pclass]
    exact hinv.used c
  all_goals simp only [chooseType_pnode, chooseType_pclass]
  case typed => exact hinv.typed
  case lists => exact hinv.lists
  case hasList => exact hinv.hasList
  case members => exact hinv.members
  case own => exact hinv.own
  case untyped => exact hinv.untyped
  case static => exact hinv.static
  case others => exact hinv.others

theorem available_chooseType (type : Option String) {p : PVertex} :
    Available env (s.chooseType vv type) p ↔ Available env s p := by
  refine available_congr ?_ (fun c t => ?_) fun o _ => ?_
  · rw [chooseType_pnode]
  · rw [chooseType_pclass]
  · rw [chooseType_pclass]

end

variable [Double R]

def NodeCall.step (env : Env R) (s : State R) : NodeCall env → Option (State R)
  | .add vv _ type pv deterministic isFixed skipLinks random =>
    (addNode env vv pv deterministic isFixed skipLinks random (s.chooseType vv type)).toOption.map Prod.snd
  | .remove vv _ => (removeNode env vv s).toOption

/-- What a call has to meet for pnodes to stay available. -/
def NodeCall.Handled (env : Env R) (s : State R) : NodeCall env → Prop
  | .add vv _ type pv _ _ _ _ => AddHandled env vv pv (s.chooseType vv type)
  | .remove vv _ => RemoveHandled env vv s

theorem Except.toOption_eq_some {ε α : Type} {x : Except ε α} {a : α} (h : x.toOption = some a) : x = .ok a := by
  cases x with
  | error e => cases h
  | ok b => rw [some.inj h]

section

variable {env : Env R} {s s' : State R}

theorem NodeCall.step_cases {call : NodeCall env} (h : call.step env s = some s') :
    (∃ vv hvv type pv d f l random tr, call = .add vv hvv type pv d f l random ∧
      AddsNode env vv pv (s.chooseType vv type) s' tr) ∨
    (∃ vv hvv type pv d f l random, call = .add vv hvv type pv d f l random ∧
      (s.vnode vv).assigned = false ∧ s' = s.chooseType vv type ∧
      takeType env vv pv (s.chooseType vv type) = none) ∨
    ∃ vv hvv type tr pc, call = .remove vv hvv ∧ RemovesNode env vv s s' type tr pc := by
  cases call with
  | add vv hvv type pv d f l random =>
    simp only [NodeCall.step, map_eq_some_iff] at h
    obtain ⟨r, hr, rfl⟩ := h
    have hok := Except.toOption_eq_some hr
    rcases (addNode_adds env vv pv d f l random (s.chooseType vv type)).of_ok hok with
      ⟨-, heq, htake⟩ | ⟨-, tr, hadds⟩
    · refine Or.inr (Or.inl ⟨vv, hvv, type, pv, d, f, l, random, rfl, ?_, heq, htake⟩)
      rw [← chooseType_assigned vv type]
      -- a call for an assigned vnode is an error
      unfold addNode at hok
      by_contra hassigned
      rw [Bool.not_eq_false] at hassigned
      rw [hassigned] at hok
      cases hok
    · exact Or.inl ⟨vv, hvv, type, pv, d, f, l, random, tr, rfl, hadds⟩
  | remove vv hvv =>
    have hok := Except.toOption_eq_some h
    obtain ⟨type, tr, pc, hremoves⟩ := (removeNode_removes env vv s).of_ok hok
    exact Or.inr (Or.inr ⟨vv, hvv, type, tr, pc, rfl, hremoves⟩)

omit [Double R] in
theorem AddsNode.free_of_chooseType {vv : VVertex} {pv : PVertex} {type : Option String}
    {tr : TypeRecord} (h : AddsNode env vv pv (s.chooseType vv type) s' tr) : (s.vnode vv).assigned = false := by
  rw [← chooseType_assigned vv type]
  exact h.free

theorem PclassInv.step (hgen : GeneratedPclasses env) (hinv : PclassInv env s) {call : NodeCall env}
    (h : call.step env s = some s') : PclassInv env s' := by
  rcases NodeCall.step_cases h with ⟨vv, hvv, type, pv, d, f, l, random, tr, -, hadds⟩ |
    ⟨vv, hvv, type, pv, d, f, l, random, -, hfree, rfl, -⟩ | ⟨vv, hvv, type, tr, pc, -, hremoves⟩
  · exact (hinv.chooseType hadds.free_of_chooseType type).add hgen hvv hadds
  · exact hinv.chooseType hfree type
  · exact hinv.remove hvv hremoves

omit [Double R] in
theorem addHandled_of_refused {vv : VVertex} {pv : PVertex} (h : takeType env vv pv s = none) :
    AddHandled env vv pv s := by
  intro c tr _ hfind hdynamic haccepts
  unfold takeType at h
  dsimp only at h
  rw [hfind] at h
  dsimp only at h
  rw [hdynamic] at h
  by_cases htyped : (s.pnode pv).typed = true
  · simp [htyped, haccepts htyped] at h
  · simp [htyped] at h

/-- **Step lemma.** All pnodes stay available exactly if the call is handled. -/
theorem NodeCall.available_iff (hgen : GeneratedPclasses env) (hinv : PclassInv env s)
    (hbefore : ∀ p c, (env.pg.pnode p).myClass = some c → Available env s p)
    {call : NodeCall env} (h : call.step env s = some s') :
    (∀ p c, (env.pg.pnode p).myClass = some c → Available env s' p) ↔ call.Handled env s := by
  rcases NodeCall.step_cases h with ⟨vv, hvv, type, pv, d, f, l, random, tr, rfl, hadds⟩ |
    ⟨vv, hvv, type, pv, d, f, l, random, rfl, hfree, rfl, htake⟩ |
    ⟨vv, hvv, type, tr, pc, rfl, hremoves⟩
  · exact hadds.available_iff hgen (hinv.chooseType hadds.free_of_chooseType type) hvv
      fun p c hc => (available_chooseType type).mpr (hbefore p c hc)
  · exact iff_of_true (fun p c hc => (available_chooseType type).mpr (hbefore p c hc))
      (addHandled_of_refused htake)
  · exact hremoves.available_iff hgen hinv hvv hbefore

/-- Nothing is assigned at the start, and all pnodes are in all lists. -/
theorem pclassInv_start (hgen : GeneratedPclasses env) : PclassInv env (initScore env (State.parsed env)) := by
  obtain ⟨hpnode, hpclass, hfree⟩ := initScore_hosting env
  have hmapped : ∀ p, mappedVnodes env (initScore env (State.parsed env)).vnode p = [] := by
    intro p
    unfold mappedVnodes
    simp [hfree]
  constructor
  case hasType =>
    intro v hv
    rw [hfree] at hv
    cases hv
  case total =>
    intro p
    unfold hosted
    rw [hpnode, hmapped]
    rfl
  case empty => exact fun p _ => by rw [hpnode]; rfl
  case typed =>
    intro p ht
    rw [hpnode] at ht
    cases ht
  case lists => exact hpclass ▸ hgen.lists
  case hasList => exact fun c type => by rw [hpclass]
  case members => exact hpclass ▸ hgen.members
  case own => exact fun p o ho => hpclass ▸ (hgen.own p o ho).1
  case untyped => exact fun p c hclass _ => hpclass ▸ hgen.listed p c hclass
  case static =>
    intro p c hclass type tr hfind _
    rw [hpclass]
    exact hgen.listed p c hclass type (hgen.hasList p c hclass type (by rw [hfind]; rfl))
  case others =>
    intro p c _ ht
    rw [hpnode] at ht
    cases ht
  case used =>
    intro c
    unfold dynamicVnodes
    rw [hpclass, hmapped]
    exact hgen.unused c

theorem available_start (hgen : GeneratedPclasses env) {p : PVertex} {c : Nat}
    (hclass : (env.pg.pnode p).myClass = some c) : Available env (initScore env (State.parsed env)) p := by
  obtain ⟨-, hpclass, -⟩ := initScore_hosting env
  have hinv := pclassInv_start hgen
  constructor
  · rintro ⟨hown, -⟩
    obtain ⟨o, ho, henabled⟩ := (inOwnClass_iff hinv).mp hown
    rw [hpclass, (hgen.own p o ho).2.1] at henabled
    cases henabled
  · rintro ⟨type, tr, hfind, -⟩
    refine Or.inr ((inOtherClass_iff hgen hinv hclass).mpr ⟨type, ?_⟩)
    rw [hpclass]
    exact hgen.listed p c hclass type (hgen.hasList p c hclass type (by rw [hfind]; rfl))

end

/-- **Membership of pclasses.** In all states of every run the lists have a pnode once at most and
    all the empty ones, a dynamic type excludes the other ones, and the members in use are counted.
    All pnodes are available in all states exactly if the calls that return are handled. -/
theorem pclass_membership {env : Env R} (hgen : GeneratedPclasses env) (calls : List (NodeCall env)) :
    (∀ pre s, pre <+: calls → run (NodeCall.step env) (initScore env (State.parsed env)) pre = some s →
      (∀ c, ∀ m ∈ (s.pclass c).members, m.2.Nodup) ∧
      (∀ p c, (env.pg.pnode p).myClass = some c → hosted env s.vnode p = [] →
        ∀ m ∈ (s.pclass c).members, p ∈ m.2) ∧
      (∀ p c, (env.pg.pnode p).myClass = some c → (s.pnode p).typed = true →
        ∀ m ∈ (s.pclass c).members, ∀ tr, m.1 ≠ (s.pnode p).currentType →
          (env.pg.pnode p).findType m.1 = some tr → tr.staticType = false → p ∉ m.2) ∧
      ∀ c, (s.pclass c).usedMembers = (dynamicVnodes env s.vnode c).length) ∧
    ((∀ pre s, pre <+: calls → run (NodeCall.step env) (initScore env (State.parsed env)) pre = some s →
        ∀ p c, (env.pg.pnode p).myClass = some c → Available env s p) ↔
      Meets (NodeCall.step env) (fun s call => (call.step env s).isSome = true → call.Handled env s)
        (initScore env (State.parsed env)) calls) := by
  have hstart := pclassInv_start hgen
  refine ⟨fun pre s _ hrun => ?_, ?_⟩
  · have hinv : PclassInv env s := run_inv (PclassInv env) (fun _ _ _ hinv _ hstep => hinv.step hgen hstep) hstart
      ((meets_of_forall (p := fun _ => True) (fun _ _ => trivial) _)) hrun
    refine ⟨hinv.lists.lists, fun p c hclass hempty m hm => ?_, ?_, hinv.used⟩
    · refine hinv.lists.mem_of_listed hm ?_
      exact hinv.untyped p c hclass (hinv.empty p hempty) m.1 (mem_map_of_mem hm)
    · intro p c hclass ht m hm tr hne hfind hdynamic hmem
      exact hinv.others p c hclass ht m.1 tr hne hfind hdynamic ⟨m, hm, rfl, hmem⟩
  · refine prefix_iff_meets (PclassInv env) (fun s => ∀ p c, (env.pg.pnode p).myClass = some c → Available env s p)
      (fun _ _ _ hinv hstep => hinv.step hgen hstep) ?_ ?_ hstart
      (fun p c hclass => available_start hgen hclass) calls
    · intro s call s' hinv hbefore hstep
      rw [NodeCall.available_iff hgen hinv hbefore hstep, hstep]
      simp
    · intro s call _ hfail hsome
      rw [hfail] at hsome
      cases hsome

/-- Two hosts in a pclass for two vnodes each, with one more pclass for each of them. -/
def twoHosts : Env ℚ where
  vg :=
    { vertices := [1, 2]
      edges := []
      vnode := fun v =>
        { name := if v = 1 then "a" else "b", type := "pcvm", typecount := 1, vclass := none,
          desires := [], disallowTrivialMix := false, subnodeOf := none, subnodes := [] }
      vlink := fun _ =>
        { src := 1, dst := 2, type := "ethernet", bandwidth := 100,
          adjustToNativeBandwidth := false, fixSrcIface := false, srcIface := "",
          fixDstIface := false, dstIface := "", emulated := false, allowTrivial := false,
          allowInterswitch := true }
      vertices_nodup := nodup_one_two
      edges_nodup := nodup_nil
      src_mem := by simp
      dst_mem := by simp }
  pg :=
    { edges := []
      pnode := fun p =>
        { name := if p = 1 then "pc1" else "pc2", types := [("pcvm", ⟨2, false⟩)],
          typeList := [("pcvm", 2)], features := [], switches := [], isSwitch := false,
          trivialBw := 0, subnodeOf := none,
          myClass := if p = 1 ∨ p = 2 then some 0 else none,
          myOwnClass := if p = 1 then some 1 else if p = 2 then some 2 else none }
      plink := fun _ =>
        { src := 1, dst := 2, srcnode := "pc1", srciface := "eth0", dstiface := "eth0",
          isType := .normal, types := ["ethernet"], bandwidth := 100, fixends := false }
      slink := fun _ _ => none
      switchPreds := fun _ p => p
      numSwitches := 0
      switches_isSwitch := noSwitches
      slink_interswitch := noSlink }
  opts := ⟨true, false, false, false, false, false⟩
  score := scoreConstants fun x _ => x
  feature := fun _ => ⟨false, false, false, false, false⟩
  ptypeMaxUsers := fun _ => -1
  pclass := fun c =>
    if c = 0 then { usedMembers := 0, disabled := false, members := [("pcvm", [1, 2])] }
    else if c = 1 then { usedMembers := 0, disabled := true, members := [("pcvm", [1])] }
    else if c = 2 then { usedMembers := 0, disabled := true, members := [("pcvm", [2])] }
    else { usedMembers := 0, disabled := false, members := [] }
  vclass := fun _ => { members := [], weight := 1, score := 0, dominant := "" }
  vclass_keys_nodup := fun _ => nodup_nil
  vclass_members_zero := noMembers
  strLt := fun a b => decide (a < b)
  strLt_asymm := string_lt_asymm
  strLt_total := string_lt_total
  hashOrder := id
  hashOrder_perm := id_perm

/-- Both vnodes are mapped to the first host, and one is removed. -/
def oneOfTwo : List (NodeCall twoHosts) :=
  [.add 1 (by decide) none 1 false false false fun _ => 0,
    .add 2 (by decide) none 1 false false false fun _ => 0, .remove 1 (by decide)]

/-- The host is in the list of its normal pclass again, while its own pclass is still enabled. -/
theorem oneOfTwo_in_both : ∃ s,
    run (NodeCall.step twoHosts) (initScore twoHosts (State.parsed twoHosts)) oneOfTwo = some s ∧
      InOwnClass twoHosts s 1 ∧ InOtherClass twoHosts s 1 ∧ ¬Available twoHosts s 1 := by
  have hrun : ∃ s, run (NodeCall.step twoHosts) (initScore twoHosts (State.parsed twoHosts)) oneOfTwo = some s ∧
      (s.pclass 1).disabled = false ∧ (s.pclass 1).members = [("pcvm", [1])] ∧
      (s.pclass 0).members = [("pcvm", [1, 2])] := ⟨_, rfl, rfl, rfl, rfl⟩
  obtain ⟨s, hs, henabled, hown, hother⟩ := hrun
  have hin : InOwnClass twoHosts s 1 :=
    ⟨1, rfl, henabled, "pcvm", by rw [Listed, hown]; exact ⟨_, mem_singleton_self _, rfl, by simp⟩⟩
  have hout : InOtherClass twoHosts s 1 :=
    ⟨0, "pcvm", by decide, by rw [Listed, hother]; exact ⟨_, mem_singleton_self _, rfl, by simp⟩⟩
  exact ⟨s, hs, hin, hout, fun h => h.one ⟨hin, hout⟩⟩

theorem twoHosts_findType {p : PVertex} {type : String} {tr : TypeRecord}
    (h : (twoHosts.pg.pnode p).findType type = some tr) : type = "pcvm" ∧ tr = ⟨2, false⟩ := by
  by_cases htype : type = "pcvm"
  · subst htype
    exact ⟨rfl, (some.inj h).symm⟩
  · simp [twoHosts, Pnode.findType, lookup_cons, beq_eq_false_iff_ne.mpr htype] at h

theorem generatedPclasses_twoHosts : GeneratedPclasses twoHosts where
  lists := by
    constructor
    · intro c
      simp only [twoHosts]
      split_ifs <;> simp
    · intro c m hm
      simp only [twoHosts] at hm
      split_ifs at hm <;> simp at hm <;> subst hm <;> decide
  listed := by
    intro p c hclass type hhas
    simp only [twoHosts] at hclass
    split_ifs at hclass with hp
    obtain rfl := some.inj hclass
    obtain rfl : type = "pcvm" := by simpa [HasList, twoHosts] using hhas
    exact ⟨("pcvm", [1, 2]), mem_singleton_self _, rfl, by simpa using hp⟩
  hasList := by
    intro p c hclass type hfind
    simp only [twoHosts] at hclass
    split_ifs at hclass with hp
    obtain rfl := some.inj hclass
    obtain ⟨tr, hfind⟩ := isSome_iff_exists.mp hfind
    obtain ⟨rfl, -⟩ := twoHosts_findType hfind
    exact mem_singleton_self _
  members := by
    rintro c type p ⟨m, hm, rfl, hp⟩
    simp only [twoHosts] at hm ⊢
    split_ifs at hm with h₀ h₁ h₂
    · obtain rfl := mem_singleton.mp hm
      left
      rw [if_pos (by simpa using hp), h₀]
    · obtain rfl := mem_singleton.mp hm
      obtain rfl := mem_singleton.mp hp
      right
      rw [if_pos rfl, h₁]
    · obtain rfl := mem_singleton.mp hm
      obtain rfl := mem_singleton.mp hp
      right
      simp [h₂]
    · cases hm
  own := by
    intro p o ho
    simp only [twoHosts] at ho
    split_ifs at ho with h₁ h₂
    · subst h₁
      obtain rfl := some.inj ho
      exact ⟨⟨"pcvm", ("pcvm", [1]), mem_singleton_self _, rfl, mem_singleton_self _⟩,
        rfl, 0, rfl⟩
    · subst h₂
      obtain rfl := some.inj ho
      exact ⟨⟨"pcvm", ("pcvm", [2]), mem_singleton_self _, rfl, mem_singleton_self _⟩,
        rfl, 0, rfl⟩
  own_ne := by
    intro p q o ho hclass
    simp only [twoHosts] at ho hclass
    split_ifs at hclass
    obtain rfl := some.inj hclass
    split_ifs at ho
    · cases ho
    · cases ho
  own_inj := by
    intro p q o hp hq
    simp only [twoHosts] at hp hq
    split_ifs at hp <;> split_ifs at hq <;> simp_all
  unused := by
    intro c
    simp only [twoHosts]
    split_ifs <;> rfl

/-- One vnode is mapped to the first host, -/
def mapOne : NodeCall twoHosts := .add 1 (by decide) none 1 false false false fun _ => 0

/-- and removed. -/
def unmapOne : NodeCall twoHosts := .remove 1 (by decide)

/-- The host is available in the end, since its own pclass is disabled again. -/
theorem pclass_membership_mapOne : ∃ s,
    run (NodeCall.step twoHosts) (initScore twoHosts (State.parsed twoHosts)) [mapOne, unmapOne] =
        some s ∧
      Available twoHosts s 1 ∧ (s.pclass 0).usedMembers = (dynamicVnodes twoHosts s.vnode 0).length := by
  have hrun : ∃ s₁ s₂, mapOne.step twoHosts (initScore twoHosts (State.parsed twoHosts)) = some s₁ ∧
      unmapOne.step twoHosts s₁ = some s₂ ∧ (s₁.pnode 1).totalLoad = 1 ∧
      (s₁.vnode 1).assignment = 1 := ⟨_, _, rfl, rfl, rfl, rfl⟩
  obtain ⟨s₁, s₂, h₁, h₂, htotal, hassignment⟩ := hrun
  have hs₂ : run (NodeCall.step twoHosts) (initScore twoHosts (State.parsed twoHosts))
      [mapOne, unmapOne] = some s₂ := by
    rw [run_cons, h₁, bind_some, run_cons, h₂]
    rfl
  have hall := pclass_membership generatedPclasses_twoHosts [mapOne, unmapOne]
  refine ⟨s₂, hs₂, hall.2.mpr ⟨fun _ => ?_, fun s hs => ⟨fun _ => ?_, fun _ _ => trivial⟩⟩
    _ s₂ (prefix_refl _) hs₂ 1 0 rfl, (hall.1 _ _ (prefix_refl _) hs₂).2.2.2 0⟩
  · intro c tr _ _ _ _
    rintro ⟨type, tr', hfind, hstatic⟩
    obtain ⟨-, rfl⟩ := twoHosts_findType hfind
    cases hstatic
  · obtain rfl := some.inj (hs.symm.trans h₁)
    intro _ o _
    rw [hassignment]
    exact Or.inr htotal

end Emulab.Assign
