import Emulab.Lib.ShortestPath

/-! # Label setting

  Shortest paths from one source by settling the nearest vertex again and
  again. A vertex has a label, the least cost of a walk that has been found
  so far. Labels from `inf` on mean that none has been found, and a walk
  that costs so much is not looked for.
-/

namespace ShortestPath

variable {V : Type} {E : V → V → Nat → Prop} {s t u v x : V} {w c inf : Nat}
  {done : V → Prop} {label label' : V → Nat}

/-- The labels while the vertices `done` have been settled. -/
structure Labels (E : V → V → Nat → Prop) (s : V) (inf : Nat) (done : V → Prop)
    (label : V → Nat) : Prop where
  source : label s = 0
  walk : ∀ v, label v < inf → Walk E s v (label v)
  relaxed : ∀ u v w, done u → E u v w → label u + w < inf → label v ≤ label u + w
  least : ∀ u, done u → IsLeast {c | Walk E s u c} (label u)

theorem Labels.start (hs : label s = 0) (h : ∀ v, v ≠ s → inf ≤ label v) :
    Labels E s inf (fun _ => False) label where
  source := hs
  walk v hv := by
    by_cases hvs : v = s
    · subst hvs
      rw [hs]
      exact Walk.nil v
    · exact absurd hv (not_lt.mpr (h v hvs))
  relaxed _ _ _ h := h.elim
  least _ h := h.elim

theorem Labels.cover (hl : Labels E s inf done label) (h : Walk E s x c) (hc : c < inf) :
    done x ∧ label x ≤ c ∨ ∃ y, ¬ done y ∧ label y ≤ c := by
  have hfrom : ∀ {u x c}, Walk E u x c → ∀ a, (done u ∧ label u ≤ a ∨ ∃ y, ¬ done y ∧ label y ≤ a) →
      a + c < inf → done x ∧ label x ≤ a + c ∨ ∃ y, ¬ done y ∧ label y ≤ a + c := by
    intro u x c hwalk
    induction hwalk with
    | nil v => exact fun a ha _ => ha
    | @cons u v t w c he _ ih =>
      intro a ha hinf
      rw [← Nat.add_assoc] at hinf ⊢
      refine ih (a + w) ?_ hinf
      rcases ha with ⟨hu, hle⟩ | ⟨y, hy, hle⟩
      · have hv := hl.relaxed u v w hu he (by omega)
        by_cases hdone : done v
        · exact Or.inl ⟨hdone, by omega⟩
        · exact Or.inr ⟨v, hdone, by omega⟩
      · exact Or.inr ⟨y, hy, by omega⟩
  have hstart : done s ∧ label s ≤ 0 ∨ ∃ y, ¬ done y ∧ label y ≤ 0 := by
    have := hl.source
    by_cases hdone : done s
    · exact Or.inl ⟨hdone, by omega⟩
    · exact Or.inr ⟨s, hdone, by omega⟩
  simpa using hfrom h 0 hstart (by omega)

theorem Labels.nearest (hl : Labels E s inf done label) (hinf : label v < inf)
    (hmin : ∀ y, ¬ done y → label v ≤ label y) (hv : ¬ done v) : IsLeast {c | Walk E s v c} (label v) := by
  refine ⟨hl.walk v hinf, fun c hc => ?_⟩
  by_contra hlt
  rcases hl.cover hc (by omega) with ⟨hdone, -⟩ | ⟨y, hy, hle⟩
  · exact hv hdone
  · have := hmin y hy
    omega

/-- The labels after the edges of `v` have been looked at. -/
structure Relaxed (E : V → V → Nat → Prop) (inf : Nat) (done : V → Prop) (v : V)
    (label label' : V → Nat) : Prop where
  keep : ∀ x, done x ∨ x = v → label' x = label x
  le : ∀ x, label' x ≤ label x
  walk : ∀ x, label' x < inf → label' x = label x ∨ ∃ w, E v x w ∧ label' x = label v + w
  relax : ∀ x w, E v x w → ¬ done x → x ≠ v → label v + w < inf → label' x ≤ label v + w

/-- **Step rule.** The nearest vertex is settled. -/
theorem Labels.settle (hl : Labels E s inf done label) (hv : ¬ done v) (hinf : label v < inf)
    (hmin : ∀ y, ¬ done y → label v ≤ label y) (hr : Relaxed E inf done v label label') :
    Labels E s inf (fun x => done x ∨ x = v) label' := by
  have hleast : ∀ u, done u ∨ u = v → IsLeast {c | Walk E s u c} (label u) := by
    rintro u (hu | rfl)
    · exact hl.least u hu
    · exact hl.nearest hinf hmin hv
  constructor
  · have hle := hr.le s
    rw [hl.source] at hle
    exact Nat.le_zero.mp hle
  · intro x hx
    rcases hr.walk x hx with heq | ⟨w, he, heq⟩
    · rw [heq]
      exact hl.walk x (heq ▸ hx)
    · rw [heq]
      exact (hl.walk v hinf).append (Walk.single he)
  · intro u x w hu he hlt
    rw [hr.keep u hu] at hlt ⊢
    by_cases hx : done x ∨ x = v
    · -- a settled vertex has the least cost of all walks
      rw [hr.keep x hx]
      exact (hleast x hx).2 (((hleast u hu).1).append (Walk.single he))
    · rw [not_or] at hx
      rcases hu with hu | rfl
      · exact (hr.le x).trans (hl.relaxed u x w hu he hlt)
      · exact hr.relax x w he hx.1 hx.2 hlt
  · intro u hu
    rw [hr.keep u hu]
    exact hleast u hu

theorem Labels.complete (hl : Labels E s inf done label) (hend : ∀ y, ¬ done y → inf ≤ label y)
    (h : Walk E s x c) (hc : c < inf) : done x ∧ label x ≤ c := by
  rcases hl.cover h hc with hx | ⟨y, hy, hle⟩
  · exact hx
  · have := hend y hy
    omega

/-! ## Predecessors -/

/-- A label comes from the settled predecessor. -/
def Preds (E : V → V → Nat → Prop) (s : V) (inf : Nat) (done : V → Prop) (label : V → Nat) (pred : V → V) : Prop :=
  ∀ x, x ≠ s → label x < inf → done (pred x) ∧ ∃ w, E (pred x) x w ∧ label x = label (pred x) + w

theorem Preds.settle {pred pred' : V → V} (hp : Preds E s inf done label pred)
    (hr : Relaxed E inf done v label label') (hpred : ∀ x, label' x = label x ∧ pred' x = pred x ∨
      pred' x = v ∧ ∃ w, E v x w ∧ label' x = label v + w) :
    Preds E s inf (fun x => done x ∨ x = v) label' pred' := by
  intro x hx hlt
  rcases hpred x with ⟨hsame, heq⟩ | ⟨heq, w, he, hnew⟩
  · rw [hsame] at hlt ⊢
    obtain ⟨hdone, w, he, hw⟩ := hp x hx hlt
    rw [heq]
    refine ⟨Or.inl hdone, w, he, ?_⟩
    rw [hr.keep _ (Or.inl hdone)]
    exact hw
  · rw [heq]
    refine ⟨Or.inr rfl, w, he, ?_⟩
    rw [hr.keep v (Or.inr rfl)]
    exact hnew

/-! ## First hops -/

/-- The first hop to a vertex is next to the source, on a walk of the cost of the label. -/
def FirstHops (E : V → V → Nat → Prop) (s : V) (inf : Nat) (label : V → Nat) (first : V → V) : Prop :=
  ∀ x, x ≠ s → label x < inf → ∃ w c, E s (first x) w ∧ Walk E (first x) x c ∧ w + c = label x

theorem FirstHops.settle {first first' : V → V} (hf : FirstHops E s inf label first) (hv : v ≠ s)
    (hinf : label v < inf) (hfirst : ∀ x, label' x = label x ∧ first' x = first x ∨ inf ≤ label' x ∨
      first' x = first v ∧ ∃ w, E v x w ∧ label' x = label v + w) : FirstHops E s inf label' first' := by
  intro x hx hlt
  rcases hfirst x with ⟨hsame, heq⟩ | hle | ⟨heq, w, he, hnew⟩
  · rw [heq, hsame]
    exact hf x hx (hsame ▸ hlt)
  · omega
  · obtain ⟨w', c, hedge, hwalk, hsum⟩ := hf v hv hinf
    rw [heq, hnew]
    exact ⟨w', c + w, hedge, hwalk.append (Walk.single he), by omega⟩

/-! ## Following the hops -/

/-- Going from hop to hop ends at `t`, at this cost. -/
inductive Hops (E : V → V → Nat → Prop) (next : V → V) (t : V) : V → Nat → Prop where
  | here : Hops E next t t 0
  | hop {u : V} {w c : Nat} : u ≠ t → E u (next u) w → Hops E next t (next u) c → Hops E next t u (w + c)

theorem hops_least {next : V → V} (hpos : ∀ u v w, E u v w → 0 < w)
    (hnext : ∀ u c, u ≠ t → c < inf → IsLeast {c | Walk E u t c} c →
      ∃ w c', E u (next u) w ∧ Walk E (next u) t c' ∧ w + c' = c) :
    ∀ c u, c < inf → IsLeast {c | Walk E u t c} c → Hops E next t u c := by
  intro c
  induction c using Nat.strong_induction_on with
  | h c ih =>
    intro u hc hleast
    by_cases hut : u = t
    · subst hut
      obtain rfl : c = 0 := Nat.le_zero.mp (hleast.2 (Walk.nil u))
      exact Hops.here
    · obtain ⟨w, c', he, hwalk, rfl⟩ := hnext u c hut hc hleast
      have hw := hpos _ _ _ he
      -- what is left of a shortest path is one
      have hrest : IsLeast {c | Walk E (next u) t c} c' := by
        refine ⟨hwalk, fun c'' hc'' => ?_⟩
        have := hleast.2 (Walk.cons he hc'')
        omega
      exact Hops.hop hut he (ih c' (by omega) (next u) (by omega) hrest)

end ShortestPath
