import Mathlib.Data.List.Nodup
import Mathlib.Data.List.Pairwise
import Mathlib.Data.List.Perm.Basic
import Mathlib.Logic.Function.Basic

/-! # Greedy matching and classification by representatives

  Two lists match if there is a one-to-one mapping between their elements that
  keeps to a relation. For a symmetric and transitive relation it does not
  matter which partner an element takes, so that the first one will do. For
  the same reason elements can be sorted into classes by looking at one
  representative of each class. The relation need not be reflexive.
-/

namespace Classify

open Function List Option

variable {α : Type*}

/-! ## Section 1: Matching -/

section Matching

variable (r : α → α → Prop)

/-- There is a one-to-one mapping. -/
def Matches (as bs : List α) : Prop := Relation.Comp List.Perm (List.Forall₂ r) as bs

variable {r}

/-- It does not matter which of the lists is put in order. -/
theorem matches_iff {as bs : List α} : Matches r as bs ↔ ∃ cs, List.Forall₂ r as cs ∧ cs.Perm bs := by
  unfold Matches
  rw [← forall₂_comp_perm_eq_perm_comp_forall₂]
  rfl

theorem Matches.perm_right {as bs cs : List α} (h : Matches r as bs) (hperm : bs.Perm cs) : Matches r as cs := by
  obtain ⟨ds, hds, hperm'⟩ := matches_iff.mp h
  exact matches_iff.mpr ⟨ds, hds, hperm'.trans hperm⟩

theorem Matches.symm (hsymm : ∀ a b, r a b → r b a) {as bs : List α} (h : Matches r as bs) : Matches r bs as := by
  obtain ⟨cs, hperm, hall⟩ := h
  have hflip : List.Forall₂ (flip r) bs cs := hall.flip
  exact matches_iff.mpr ⟨cs, hflip.imp fun b c hbc => hsymm c b hbc, hperm.symm⟩

theorem forall₂_trans (htrans : ∀ a b c, r a b → r b c → r a c) {as bs cs : List α}
    (hab : List.Forall₂ r as bs) (hbc : List.Forall₂ r bs cs) : List.Forall₂ r as cs := by
  induction hab generalizing cs with
  | nil => exact hbc
  | cons h _ ih =>
    cases hbc with
    | cons h' hrest => exact .cons (htrans _ _ _ h h') (ih hrest)

theorem Matches.trans (htrans : ∀ a b c, r a b → r b c → r a c) {as bs cs : List α}
    (hab : Matches r as bs) (hbc : Matches r bs cs) : Matches r as cs := by
  obtain ⟨as', hperm, hall⟩ := hab
  obtain ⟨bs', hperm', hall'⟩ := hbc
  -- both lists are put in the order of `bs'`
  have hmatches : Matches r as' bs' := matches_iff.mpr ⟨bs, hall, hperm'⟩
  obtain ⟨ds, hds, hall''⟩ := hmatches
  exact ⟨ds, hperm.trans hds, forall₂_trans htrans hall'' hall'⟩

@[simp] theorem matches_nil {bs : List α} : Matches r [] bs ↔ bs = [] := by
  rw [matches_iff]
  constructor
  · intro ⟨cs, hall, hperm⟩
    cases hall
    exact hperm.symm.eq_nil
  · intro h
    subst h
    exact ⟨[], .nil, .refl _⟩

/-- A partner can be replaced by one that it is related to. -/
theorem Matches.replace (htrans : ∀ a b c, r a b → r b c → r a c) {as bs : List α} {b c : α}
    (h : Matches r as (b :: bs)) (hbc : r b c) : Matches r as (c :: bs) := by
  obtain ⟨as', hperm, hall⟩ := h
  cases hall with
  | cons hab hrest => exact ⟨_, hperm, .cons (htrans _ _ _ hab hbc) hrest⟩

/-- The first element can take any partner. -/
theorem matches_cons (hsymm : ∀ a b, r a b → r b a) (htrans : ∀ a b c, r a b → r b c → r a c)
    {a b : α} {as bs : List α} (hab : r a b) : Matches r (a :: as) (b :: bs) ↔ Matches r as bs := by
  constructor
  · intro h
    obtain ⟨cs, hall, hperm⟩ := matches_iff.mp h
    cases hall with
    | @cons _ c _ cs hac hrest =>
      classical
      by_cases hbc : b = c
      · subst hbc
        exact matches_iff.mpr ⟨cs, hrest, hperm.cons_inv⟩
      · -- `b` is the partner of some other element, which can take `c` instead
        have hmem : b ∈ cs := by
          have : b ∈ c :: cs := hperm.mem_iff.mpr mem_cons_self
          exact (mem_cons.mp this).resolve_left hbc
        have hcs : cs.Perm (b :: cs.erase b) := perm_cons_erase hmem
        have hbs : (c :: cs.erase b).Perm bs := by
          apply List.Perm.cons_inv (a := b)
          exact ((List.Perm.swap c b _).trans (hcs.symm.cons c)).trans hperm
        have hmatches : Matches r as (b :: cs.erase b) := matches_iff.mpr ⟨cs, hrest, hcs⟩
        have hbc' : r b c := htrans b a c (hsymm a b hab) hac
        exact (hmatches.replace htrans hbc').perm_right hbs
  · intro h
    obtain ⟨as', hperm, hall⟩ := h
    exact ⟨a :: as', hperm.cons a, .cons hab hall⟩

variable (r) [DecidableRel r]

/-- Cross out the first partner of `a`. There may be none. -/
def crossOut (a : α) : List α → Option (List α)
  | [] => none
  | b :: bs => if r a b then some bs else (crossOut a bs).map (b :: ·)

/-- Cross out a partner of each element, and see if anything is left. -/
def matchAll : List α → List α → Bool
  | [], bs => bs.isEmpty
  | a :: as, bs =>
    match crossOut r a bs with
    | none => false
    | some bs => matchAll as bs

variable {r}

theorem crossOut_some {a : α} {bs bs' : List α} (h : crossOut r a bs = some bs') :
    ∃ b, r a b ∧ bs.Perm (b :: bs') := by
  induction bs generalizing bs' with
  | nil => cases h
  | cons b bs ih =>
    unfold crossOut at h
    split_ifs at h with hab
    · cases h
      exact ⟨b, hab, .refl _⟩
    · obtain ⟨cs, hcs, heq⟩ := map_eq_some_iff.mp h
      subst heq
      obtain ⟨c, hac, hperm⟩ := ih hcs
      exact ⟨c, hac, (hperm.cons b).trans (.swap c b cs)⟩

theorem crossOut_none {a : α} {bs : List α} (h : crossOut r a bs = none) : ∀ b ∈ bs, ¬ r a b := by
  induction bs with
  | nil => simp
  | cons b bs ih =>
    unfold crossOut at h
    split_ifs at h with hab
    have hrest := ih (map_eq_none_iff.mp h)
    intro c hc
    rcases mem_cons.mp hc with heq | hc
    · rw [heq]
      exact hab
    · exact hrest c hc

/-- Crossing out finds a one-to-one mapping if there is one. -/
theorem matchAll_iff (hsymm : ∀ a b, r a b → r b a) (htrans : ∀ a b c, r a b → r b c → r a c)
    (as bs : List α) : matchAll r as bs = true ↔ Matches r as bs := by
  induction as generalizing bs with
  | nil => rw [matches_nil, matchAll, List.isEmpty_iff]
  | cons a as ih =>
    unfold matchAll
    cases hcross : crossOut r a bs with
    | none =>
      constructor
      · intro h
        cases h
      · intro h
        obtain ⟨cs, hall, hperm⟩ := matches_iff.mp h
        cases hall with
        | @cons _ c _ _ hac _ =>
          exact absurd hac (crossOut_none hcross c (hperm.mem_iff.mp mem_cons_self))
    | some bs' =>
      obtain ⟨b, hab, hperm⟩ := crossOut_some hcross
      show matchAll r as bs' = true ↔ _
      rw [ih bs', ← matches_cons hsymm htrans hab]
      constructor
      · intro h
        exact h.perm_right hperm.symm
      · intro h
        exact h.perm_right hperm

end Matching

/-! ## Section 2: Classification -/

/-- The order in which a container gives its elements: any, and it may depend on
    what has been put in when. -/
structure IterationOrder (β : Type*) where
  order : List β → List β
  perm : ∀ l, (order l).Perm l

/-- Each element that is done is in the class of one representative, and the
    representatives of different classes are not related. -/
structure Classified {κ : Type*} (r : α → α → Prop) (done : List α) (reps : List (κ × α))
    (cls : α → Option κ) : Prop where
  rep_mem : ∀ e ∈ reps, e.2 ∈ done ∧ cls e.2 = some e.1
  keys_nodup : (reps.map Prod.fst).Nodup
  apart : reps.Pairwise fun e e' => ¬ r e.2 e'.2
  has_rep : ∀ a ∈ done, ∃ e ∈ reps, cls a = some e.1 ∧ (a = e.2 ∨ r a e.2)

section Classes

variable {κ : Type*} {r : α → α → Prop} {done : List α} {reps : List (κ × α)} {cls : α → Option κ}

theorem classified_nil (cls : α → Option κ) : Classified r [] [] cls where
  rep_mem := by simp
  keys_nodup := nodup_nil
  apart := .nil
  has_rep := by simp

variable [DecidableEq α] {a : α}

theorem Classified.join (h : Classified r done reps cls) (ha : a ∉ done) {e : κ × α}
    (he : e ∈ reps) (hr : r a e.2) : Classified r (a :: done) reps (update cls a (some e.1)) := by
  have hold : ∀ b ∈ done, update cls a (some e.1) b = cls b := by
    intro b hb
    exact update_of_ne (ne_of_mem_of_not_mem hb ha) _ _
  constructor
  · intro e' he'
    obtain ⟨hmem, hcls⟩ := h.rep_mem e' he'
    exact ⟨mem_cons_of_mem _ hmem, (hold e'.2 hmem).trans hcls⟩
  · exact h.keys_nodup
  · exact h.apart
  · intro b hb
    rcases mem_cons.mp hb with heq | hb
    · subst heq
      exact ⟨e, he, update_self .., Or.inr hr⟩
    · rw [hold b hb]
      exact h.has_rep b hb

/-- An element that is related to no representative gets a class of its own. -/
theorem Classified.new (h : Classified r done reps cls) (ha : a ∉ done) {k : κ}
    (hk : k ∉ reps.map Prod.fst) (hr : ∀ e ∈ reps, ¬ r e.2 a) :
    Classified r (a :: done) (reps ++ [(k, a)]) (update cls a (some k)) := by
  have hold : ∀ b ∈ done, update cls a (some k) b = cls b := by
    intro b hb
    exact update_of_ne (ne_of_mem_of_not_mem hb ha) _ _
  constructor
  · intro e he
    rcases mem_append.mp he with he | he
    · obtain ⟨hmem, hcls⟩ := h.rep_mem e he
      exact ⟨mem_cons_of_mem _ hmem, (hold e.2 hmem).trans hcls⟩
    · rw [mem_singleton.mp he]
      exact ⟨mem_cons_self, update_self ..⟩
  · rw [map_append, nodup_append]
    refine ⟨h.keys_nodup, nodup_singleton k, ?_⟩
    intro k' hk' j hj heq
    rw [map_singleton, mem_singleton] at hj
    rw [heq, hj] at hk'
    exact hk hk'
  · rw [pairwise_append]
    refine ⟨h.apart, pairwise_singleton .., ?_⟩
    intro e he e' he'
    rw [mem_singleton.mp he']
    exact hr e he
  · intro b hb
    rcases mem_cons.mp hb with heq | hb
    · subst heq
      exact ⟨(k, b), by simp, update_self .., Or.inl rfl⟩
    · obtain ⟨e, he, hrest⟩ := h.has_rep b hb
      rw [hold b hb]
      exact ⟨e, mem_append_left _ he, hrest⟩

omit [DecidableEq α] in
/-- Elements are in one class exactly if they are related. -/
theorem Classified.same_iff (h : Classified r done reps cls) (hsymm : ∀ a b, r a b → r b a)
    (htrans : ∀ a b c, r a b → r b c → r a c) {a b : α} (ha : a ∈ done) (hb : b ∈ done)
    (hne : a ≠ b) : cls a = cls b ↔ r a b := by
  obtain ⟨e, he, hclsa, hae⟩ := h.has_rep a ha
  obtain ⟨e', he', hclsb, hbe'⟩ := h.has_rep b hb
  constructor
  · intro hsame
    have hkey : e.1 = e'.1 := by
      rw [hclsa, hclsb] at hsame
      exact some.inj hsame
    have heq : e = e' := inj_on_of_nodup_map h.keys_nodup he he' hkey
    subst heq
    rcases hae with rfl | hae
    · rcases hbe' with rfl | hbe'
      · exact absurd rfl hne
      · exact hsymm _ _ hbe'
    · rcases hbe' with rfl | hbe'
      · exact hae
      · exact htrans _ _ _ hae (hsymm _ _ hbe')
  · intro hr
    have hreps : e ≠ e' → r e.2 e'.2 := by
      intro _
      have hea : r e.2 b := by
        rcases hae with rfl | hae
        · exact hr
        · exact htrans _ _ _ (hsymm _ _ hae) hr
      rcases hbe' with rfl | hbe'
      · exact hea
      · exact htrans _ _ _ hea hbe'
    by_cases heq : e = e'
    · rw [hclsa, hclsb, heq]
    · have : Std.Symm fun e e' : κ × α => ¬ r e.2 e'.2 :=
        ⟨fun _ _ hxy hyx => hxy (hsymm _ _ hyx)⟩
      exact absurd (hreps heq) (h.apart.forall he he' heq)

end Classes

end Classify
