import Mathlib.Tactic

/-! # Shortest paths

  Walks of a weighted graph, what a single-source algorithm returns, and the
  first hops that can be read off the predecessors. A first hop lies on a
  shortest path, so it is nearer to the target.
-/

namespace ShortestPath

variable {V : Type}

/-- A walk and its cost. `E u v w` is an edge of weight `w`. -/
inductive Walk (E : V → V → Nat → Prop) : V → V → Nat → Prop where
  | nil (v : V) : Walk E v v 0
  | cons {u v t : V} {w c : Nat} : E u v w → Walk E v t c → Walk E u t (w + c)

variable {E : V → V → Nat → Prop} {s t u v x : V} {w c c' : Nat}

theorem Walk.append (h : Walk E u v c) (h' : Walk E v x c') : Walk E u x (c + c') := by
  induction h with
  | nil v => simpa using h'
  | cons he _ ih => exact Nat.add_assoc _ _ _ ▸ Walk.cons he (ih h')

theorem Walk.single (he : E u v w) : Walk E u v w := Walk.cons he (Walk.nil v)

/-- Some walk leads there. -/
def Reaches (E : V → V → Nat → Prop) (u v : V) : Prop := ∃ c, Walk E u v c

theorem Reaches.refl (v : V) : Reaches E v v := ⟨0, Walk.nil v⟩

theorem Reaches.trans (h : Reaches E u v) (h' : Reaches E v x) : Reaches E u x := by
  obtain ⟨c, hwalk⟩ := h
  obtain ⟨c', hwalk'⟩ := h'
  exact ⟨c + c', hwalk.append hwalk'⟩

/-- The predecessors and the distances are those of a shortest path tree. -/
structure IsTree (E : V → V → Nat → Prop) (s : V) (pred : V → V) (dist : V → Nat) : Prop where
  source : pred s = s
  /-- What is not reached is its own predecessor. -/
  unreached : ∀ v, ¬Reaches E s v → pred v = v
  least : ∀ v, Reaches E s v → IsLeast {c | Walk E s v c} (dist v)
  /-- A shortest path to `v` comes by its predecessor. -/
  step : ∀ v, Reaches E s v → v ≠ s → Reaches E s (pred v) ∧ ∃ w, E (pred v) v w ∧ dist v = dist (pred v) + w

section

variable {pred : V → V} {dist : V → Nat}

theorem IsTree.dist_source (h : IsTree E s pred dist) : dist s = 0 :=
  Nat.le_zero.mp ((h.least s (Reaches.refl s)).2 (Walk.nil s))

theorem IsTree.dist_lt (h : IsTree E s pred dist) (hpos : ∀ u v w, E u v w → 0 < w)
    (hv : Reaches E s v) (hne : v ≠ s) : dist (pred v) < dist v := by
  obtain ⟨-, w, he, hdist⟩ := h.step v hv hne
  have := hpos _ _ _ he
  omega

theorem IsTree.pred_ne (h : IsTree E s pred dist) (hpos : ∀ u v w, E u v w → 0 < w)
    (hv : Reaches E s v) (hne : v ≠ s) : pred v ≠ v := by
  intro heq
  have := h.dist_lt hpos hv hne
  rw [heq] at this
  exact absurd this (lt_irrefl _)

variable [DecidableEq V]

/-- Goes back from `current` to the vertex that comes right after the source. -/
def firstHop (pred : V → V) (s : V) : Nat → V → Option V
  | 0, _ => none
  | fuel + 1, current => if pred current = s then some current else firstHop pred s fuel (pred current)

theorem IsTree.firstHop (h : IsTree E s pred dist) (hpos : ∀ u v w, E u v w → 0 < w)
    {fuel : Nat} (hv : Reaches E s v) (hne : v ≠ s) (hfuel : dist v ≤ fuel) :
    ∃ f w c, ShortestPath.firstHop pred s fuel v = some f ∧ E s f w ∧ Walk E f v c ∧ w + c = dist v := by
  induction fuel generalizing v with
  | zero =>
    have := h.dist_lt hpos hv hne
    omega
  | succ fuel ih =>
    obtain ⟨hreached, w, he, hdist⟩ := h.step v hv hne
    unfold ShortestPath.firstHop
    by_cases hsource : pred v = s
    · rw [if_pos hsource]
      rw [hsource] at he hdist
      exact ⟨v, w, 0, rfl, he, Walk.nil v, by rw [hdist, h.dist_source]; omega⟩
    · rw [if_neg hsource]
      have hlt := h.dist_lt hpos hv hne
      obtain ⟨f, w', c, hf, hsf, hwalk, hsum⟩ := ih hreached hsource (by omega)
      exact ⟨f, w', c + w, hf, hsf, hwalk.append (Walk.single he), by omega⟩

end

/-! ## Distances -/


/-- The cost of a shortest path, zero where there is none. -/
noncomputable def distance (E : V → V → Nat → Prop) (u v : V) : Nat := sInf {c | Walk E u v c}

theorem distance_le (h : Walk E u v c) : distance E u v ≤ c := Nat.sInf_le h

theorem distance_eq (h : IsLeast {c | Walk E u v c} c) : distance E u v = c :=
  le_antisymm (Nat.sInf_le h.1) (h.2 (Nat.sInf_mem ⟨c, h.1⟩))

@[simp] theorem distance_self (v : V) : distance E v v = 0 :=
  Nat.le_zero.mp (distance_le (Walk.nil v))

theorem distance_pos (hpos : ∀ u v w, E u v w → 0 < w) (h : Reaches E u v) (hne : u ≠ v) : 0 < distance E u v := by
  have hwalk : Walk E u v (distance E u v) := Nat.sInf_mem h
  generalize distance E u v = c at hwalk
  cases hwalk with
  | nil => exact absurd rfl hne
  | cons he _ =>
    have := hpos _ _ _ he
    omega

/-- A vertex after an edge of a shortest path is nearer to its end. -/
theorem distance_lt (hpos : ∀ u v w, E u v w → 0 < w) (he : E u v w) (hwalk : Walk E v t c)
    (hleast : IsLeast {c | Walk E u t c} (w + c)) : distance E v t < distance E u t := by
  rw [distance_eq hleast]
  have := distance_le hwalk
  have := hpos _ _ _ he
  omega

end ShortestPath
