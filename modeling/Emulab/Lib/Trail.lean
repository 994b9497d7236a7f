import Mathlib.Tactic

/-! # Walks along edges

  Walks of an undirected graph that may have several edges between two
  vertices, so that a walk is told by its edges. The predecessors of a tree
  lead back to its root; the edges on the way are a walk to the root, and no
  walk from the root if there are two or more.
-/

namespace Trail

variable {V E : Type}

/-! ## Section 1: Walks -/

/-- An edge joins two vertices, in either direction. -/
def Joins (ends : E → V × V) (e : E) (a b : V) : Prop := ends e = (a, b) ∨ ends e = (b, a)

instance [DecidableEq V] (ends : E → V × V) (e : E) (a b : V) : Decidable (Joins ends e a b) :=
  inferInstanceAs (Decidable (_ ∨ _))

/-- From a vertex along edges, in their order; the vertices that are come to. -/
inductive Follows (ends : E → V × V) : V → List E → List V → Prop where
  | nil (p : V) : Follows ends p [] []
  | cons {p q : V} {e : E} {es : List E} {vs : List V} :
    Joins ends e p q → Follows ends q es vs → Follows ends p (e :: es) (q :: vs)

/-- Where a walk from `p` ends that comes to the vertices. -/
def arrives (p : V) (vs : List V) : V := vs.getLastD p

variable {ends : E → V × V} {a b c d p q : V} {e : E} {es es' : List E} {vs vs' : List V}

theorem Joins.symm (h : Joins ends e a b) : Joins ends e b a := Or.symm h

/-- An edge leads to one vertex. -/
theorem Joins.unique (h : Joins ends e a b) (h' : Joins ends e a c) : b = c := by
  rcases h with h | h <;> rcases h' with h' | h' <;> rw [h, Prod.mk.injEq] at h'
  · exact h'.2
  · exact h'.2.trans h'.1
  · exact h'.1.trans h'.2
  · exact h'.1

theorem Joins.end_cases (h : Joins ends e a b) (h' : Joins ends e c d) : c = a ∨ c = b := by
  rcases h with h | h <;> rcases h' with h' | h' <;> rw [h, Prod.mk.injEq] at h'
  · exact Or.inl h'.1.symm
  · exact Or.inr h'.2.symm
  · exact Or.inr h'.1.symm
  · exact Or.inl h'.2.symm

@[simp] theorem arrives_nil : arrives p [] = p := rfl

@[simp] theorem arrives_cons : arrives p (q :: vs) = arrives q vs := by
  cases vs <;> rfl

@[simp] theorem arrives_append : arrives p (vs ++ vs') = arrives (arrives p vs) vs' := by
  induction vs generalizing p with
  | nil => rfl
  | cons q vs ih => rw [List.cons_append, arrives_cons, arrives_cons, ih]

theorem Follows.single (h : Joins ends e p q) : Follows ends p [e] [q] := .cons h (.nil q)

theorem Follows.append (h : Follows ends p es vs) (h' : Follows ends (arrives p vs) es' vs') :
    Follows ends p (es ++ es') (vs ++ vs') := by
  induction h with
  | nil p => exact h'
  | cons he _ ih =>
    rw [arrives_cons] at h'
    exact .cons he (ih h')

/-- A walk is told by its edges. -/
theorem Follows.unique (h : Follows ends p es vs) (h' : Follows ends p es vs') : vs = vs' := by
  induction h generalizing vs' with
  | nil p =>
    cases h'
    rfl
  | cons he _ ih =>
    cases h' with
    | cons he' h' =>
      obtain rfl := he.unique he'
      rw [ih h']

theorem Follows.after (h : Follows ends p es vs) {ws : List V} (h' : Follows ends p (es ++ es') ws) :
    ∃ ws', ws = vs ++ ws' ∧ Follows ends (arrives p vs) es' ws' := by
  induction h generalizing ws with
  | nil p => exact ⟨ws, rfl, h'⟩
  | cons he _ ih =>
    cases h' with
    | cons he' h' =>
      obtain rfl := he.unique he'
      obtain ⟨ws', rfl, hws'⟩ := ih h'
      rw [arrives_cons]
      exact ⟨ws', rfl, hws'⟩

/-- Two vertices do not come in both orders where none comes twice. -/
theorem not_sublist_swap {l : List V} (h : l.Nodup) (hne : a ≠ b) (hab : [a, b].Sublist l) :
    ¬[b, a].Sublist l := by
  induction l with
  | nil => cases hab
  | cons x l ih =>
    obtain ⟨hx, hl⟩ := List.nodup_cons.mp h
    intro hba
    cases hab with
    | cons _ hab =>
      cases hba with
      | cons _ hba => exact ih hl hab hba
      | cons_cons _ hba => exact hx (hab.subset (by simp))
    | cons_cons _ hab =>
      cases hba with
      | cons _ hba => exact hx (hba.subset (by simp))
      | cons_cons _ hba => exact hne rfl

/-! ## Section 2: Predecessors -/

/-- The way back from a vertex to the root: its edges, and its vertices from the root on. -/
inductive Branch (pred : V → V) (link : V → V → Option E) (root : V) :
    V → List E → List V → Prop where
  | root : Branch pred link root root [] [root]
  | step {v : V} {e : E} {es : List E} {vs : List V} :
    v ≠ root → link v (pred v) = some e → Branch pred link root (pred v) es vs →
      Branch pred link root v (e :: es) (vs ++ [v])

/-- The predecessors make up a tree of depth `n` at most. A vertex that is not reached is its own
    predecessor. -/
def IsPredTree (pred : V → V) (link : V → V → Option E) (root : V) (n : Nat) : Prop :=
  ∃ depth : V → Nat, ∀ v, v ≠ root → pred v ≠ v →
    (∃ e, link v (pred v) = some e) ∧ (pred v = root ∨ pred (pred v) ≠ pred v) ∧
      depth (pred v) < depth v ∧ depth v ≤ n

variable {pred : V → V} {link : V → V → Option E} {root v : V}

theorem Branch.eq_cons (h : Branch pred link root v es vs) : ∃ ws, vs = root :: ws := by
  induction h with
  | root => exact ⟨[], rfl⟩
  | step _ _ _ ih =>
    obtain ⟨ws, rfl⟩ := ih
    exact ⟨ws ++ [_], rfl⟩

theorem Branch.eq_snoc (h : Branch pred link root v es vs) : ∃ ws, vs = ws ++ [v] := by
  cases h with
  | root => exact ⟨[], rfl⟩
  | step => exact ⟨_, rfl⟩

theorem Branch.forall_mem {P : V → Prop} (hlink : ∀ a b e, link a b = some e → P a)
    (hroot : P root) (h : Branch pred link root v es vs) : ∀ w ∈ vs, P w := by
  induction h with
  | root => simpa using hroot
  | step _ he _ ih =>
    intro w hw
    rcases List.mem_append.mp hw with hw | hw
    · exact ih w hw
    · rw [List.mem_singleton.mp hw]
      exact hlink _ _ _ he

theorem Branch.follows (hlink : ∀ a b e, link a b = some e → Joins ends e a b)
    (h : Branch pred link root v es vs) : ∃ ws, vs.reverse = v :: ws ∧ Follows ends v es ws ∧
      arrives v ws = root := by
  induction h with
  | root => exact ⟨[], rfl, .nil root, rfl⟩
  | step hne he _ ih =>
    obtain ⟨ws, hreverse, hfollows, harrives⟩ := ih
    refine ⟨pred _ :: ws, ?_, .cons (hlink _ _ _ he) hfollows, ?_⟩
    · rw [List.reverse_append, hreverse]
      rfl
    · rw [arrives_cons, harrives]

/-- A tree has a way back from every vertex that is reached, and no vertex is on it twice. -/
theorem IsPredTree.branch {n : Nat} (h : IsPredTree pred link root n) (hv : pred v ≠ v)
    (hne : v ≠ root) : ∃ es vs, Branch pred link root v es vs ∧ es.length ≤ n ∧ vs.Nodup := by
  obtain ⟨depth, htree⟩ := h
  have hbranch : ∀ m v, depth v = m → v ≠ root → pred v ≠ v →
      ∃ es vs, Branch pred link root v es vs ∧ es.length ≤ depth v ∧ vs.Nodup ∧
        ∀ w ∈ vs, w = v ∨ depth w < depth v := by
    intro m
    induction m using Nat.strong_induction_on with
    | _ m ih =>
      intro v hm hne hv
      obtain ⟨⟨e, he⟩, hpred, hlt, -⟩ := htree v hne hv
      by_cases hroot : pred v = root
      · have hstep : Branch pred link root v [e] ([root] ++ [v]) :=
          .step hne he (by rw [hroot]; exact .root)
        rw [hroot] at hlt
        refine ⟨_, _, hstep, ?_, ?_, ?_⟩
        · rw [List.length_singleton]
          omega
        · simpa using hne.symm
        · simpa using Or.inr hlt
      · obtain ⟨es, vs, hes, hlength, hnodup, hdepth⟩ :=
          ih _ (hm ▸ hlt) (pred v) rfl hroot (hpred.resolve_left hroot)
        -- all that is on the way from the predecessor is nearer to the root
        have hnear : ∀ w ∈ vs, depth w < depth v := by
          intro w hw
          rcases hdepth w hw with rfl | hw
          · exact hlt
          · exact hw.trans hlt
        refine ⟨_, _, .step hne he hes, ?_, ?_, ?_⟩
        · rw [List.length_cons]
          omega
        · refine List.nodup_append.mpr ⟨hnodup, List.nodup_singleton v, ?_⟩
          intro w hw u hu
          rw [List.mem_singleton.mp hu]
          rintro rfl
          exact lt_irrefl _ (hnear w hw)
        · intro w hw
          rcases List.mem_append.mp hw with hw | hw
          · exact Or.inr (hnear w hw)
          · exact Or.inl (List.mem_singleton.mp hw)
  obtain ⟨es, vs, hes, hlength, hnodup, -⟩ := hbranch _ v rfl hne hv
  exact ⟨es, vs, hes, hlength.trans (htree v hne hv).2.2.2, hnodup⟩

/-- Of two edges or more, the first one that is come back by does not touch the root. -/
theorem Branch.not_follows (hlink : ∀ a b e, link a b = some e → Joins ends e a b)
    (h : Branch pred link root v es vs) (hnodup : vs.Nodup) (hpred : pred v ≠ root)
    (hne : v ≠ root) {ws : List V} : ¬Follows ends root (es ++ es') ws := by
  cases h with
  | root => exact absurd rfl hne
  | step _ he _ =>
    intro hfollows
    cases hfollows with
    | cons hfirst _ =>
      rcases (hlink _ _ _ he).end_cases hfirst with hroot | hroot
      · exact hne hroot.symm
      · exact hpred hroot.symm

end Trail
