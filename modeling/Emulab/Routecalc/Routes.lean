import Emulab.Lib.LabelSetting

/-! # The route calculator routecalc

  Edges are queued until the routes are calculated. One source after the
  other the nearest node is settled again and again, in arrays that are
  shared by all sources. Node 0 stands for none, and a cost of `INFINITY`
  for no edge and no route.
-/

namespace Emulab.Routecalc

open ShortestPath

/-! ## Section 1: Edges -/

def INFINITY : Nat := 0x3fff

structure QueuedAdjEntry where
  sid : Nat
  tid : Nat
  cost : Nat

/-- How doubles that are whole numbers are added up. Sums are exact up to `2 ^ 53`, and a larger one
    is not rounded to less. -/
structure Doubles where
  add : Nat → Nat → Nat
  exact : ∀ a b, a + b ≤ 2 ^ 53 → add a b = a + b
  large : ∀ a b, 2 ^ 53 < a + b → 2 ^ 53 ≤ add a b

structure Routing where
  size : Nat
  adj : Nat → Nat → Nat
  /-- `none` is the null pointer. -/
  route : Option (Nat → Nat → Nat)
  queued_adj_entries : List QueuedAdjEntry

def routing_init : Routing := ⟨0, fun _ _ => 0, none, []⟩

def routing_insert (r : Routing) (sid tid cost : Nat) : Routing :=
  let sid := sid + 1
  let tid := tid + 1
  let size := if r.size < sid + 1 then sid + 1 else r.size
  { r with
    queued_adj_entries := r.queued_adj_entries ++ [⟨sid, tid, cost⟩]
    size := if size < tid + 1 then tid + 1 else size }

/-- `a[i][j] = x` -/
def set2 (a : Nat → Nat → Nat) (i j x : Nat) : Nat → Nat → Nat :=
  Function.update a i (Function.update (a i) j x)

def add_to_adj (adj : Nat → Nat → Nat) (qe : QueuedAdjEntry) : Nat → Nat → Nat :=
  set2 adj qe.sid qe.tid qe.cost

/-! ## Section 2: The routes -/

/-- The arrays of `compute_routes`. -/
structure Arrays where
  parent : Nat → Nat
  hopcnt : Nat → Nat
  route : Nat → Nat → Nat

/-- `for (v = 1; v < n; ++v)` -/
def loop {σ : Type} (n : Nat) (body : σ → Nat → σ) (s : σ) : σ := (List.range' 1 (n - 1)).foldl body s

def setNeighbour (adj : Nat → Nat → Nat) (k : Nat) (s : Arrays) (v : Nat) : Arrays :=
  if s.parent v ≠ k then
    let s := { s with hopcnt := Function.update s.hopcnt v (adj k v) }
    if s.hopcnt v ≠ INFINITY then { s with route := set2 s.route k v v } else s
  else s

/-- The node that is the nearest to the subtree that has been routed. -/
def nearer (k : Nat) (s : Arrays) (o w : Nat) : Nat :=
  if s.parent w ≠ k ∧ s.hopcnt w < s.hopcnt o then w else o

/-- Update the distance count of a node that is adjacent to `o`. -/
def update (D : Doubles) (adj : Nat → Nat → Nat) (k o : Nat) (s : Arrays) (w : Nat) : Arrays :=
  if s.parent w ≠ k ∧ D.add (s.hopcnt o) (adj o w) < s.hopcnt w then
    { s with
      route := set2 s.route k w (s.route k o)
      hopcnt := Function.update s.hopcnt w (D.add (s.hopcnt o) (adj o w)) }
  else s

/-- One turn of the loop that settles a node. -/
def settle (D : Doubles) (adj : Nat → Nat → Nat) (n k : Nat) (s : Arrays) (_v : Nat) : Arrays :=
  let s := { s with hopcnt := Function.update s.hopcnt 0 INFINITY }
  let o := loop n (nearer k s) 0
  let s := { s with parent := Function.update s.parent o k }
  if o = 0 then s else loop n (update D adj k o) s

def fromSource (D : Doubles) (adj : Nat → Nat → Nat) (n : Nat) (s : Arrays) (k : Nat) : Arrays :=
  let s := { s with parent := fun v => v }
  let s := loop n (setNeighbour adj k) s
  loop n (settle D adj n k) s

/-- The route to yourself is yourself. -/
def setSelf (route : Nat → Nat → Nat) (k : Nat) : Nat → Nat → Nat := set2 route k k k

/-- `hopcnt` is what the array happens to hold before. -/
def compute_routes (D : Doubles) (hopcnt : Nat → Nat) (adj : Nat → Nat → Nat) (n : Nat) : Nat → Nat → Nat :=
  let s := loop n (fromSource D adj n) ⟨fun _ => 0, hopcnt, fun _ _ => 0⟩
  loop n setSelf s.route

def routing_calc (D : Doubles) (hopcnt : Nat → Nat) (r : Routing) : Routing :=
  let adj := r.queued_adj_entries.foldl add_to_adj fun _ _ => INFINITY
  { r with adj := adj, queued_adj_entries := [], route := some (compute_routes D hopcnt adj r.size) }

def routing_lookup (r : Routing) (sid did : Nat) : Int :=
  match r.route with
  | none => -1
  | some route =>
    let src := sid + 1
    let dst := did + 1
    if src ≥ r.size ∨ dst ≥ r.size then -2 else route src dst - 1

/-! ## Section 3: Loops -/

section Loops

variable {D : Doubles} {adj : Nat → Nat → Nat} {n k o : Nat} {s : Arrays}

theorem mem_loop {v : Nat} : v ∈ List.range' 1 (n - 1) ↔ 0 < v ∧ v < n := by
  rw [List.mem_range'_1]
  omega

@[simp] theorem set2_self (a : Nat → Nat → Nat) (i j x : Nat) : set2 a i j x i j = x := by
  simp [set2]

theorem set2_of_ne (a : Nat → Nat → Nat) (x : Nat) {i j i' j' : Nat} (h : i' ≠ i ∨ j' ≠ j) :
    set2 a i j x i' j' = a i' j' := by
  unfold set2
  by_cases hi : i' = i
  · subst hi
    simp [h.resolve_left (fun h => h rfl)]
  · simp [hi]

/-- The rows of other sources stay. -/
def SameRows (k : Nat) (s s' : Arrays) : Prop := ∀ i j, i ≠ k → s'.route i j = s.route i j

/-- What is known about a node: its distance count and its route. -/
def entry (k : Nat) (s : Arrays) (v : Nat) : Nat × Nat := (s.hopcnt v, s.route k v)

/-- A turn of a loop that changes the entry of one node, by `f`. -/
structure Turn (k : Nat) (s : Arrays) (w : Nat) (f : Nat × Nat → Nat × Nat) (s' : Arrays) : Prop where
  parent : s'.parent = s.parent
  rows : SameRows k s s'
  other : ∀ v, v ≠ w → entry k s' v = entry k s v
  here : entry k s' w = f (entry k s w)

/-- A loop over different nodes changes each entry on its own. -/
theorem foldl_turns {body : Arrays → Nat → Arrays} {f : Nat → Nat × Nat → Nat × Nat}
    (Inv : Arrays → Prop) {ws : List Nat}
    (hturn : ∀ s w, Inv s → Inv (body s w) ∧ Turn k s w (f w) (body s w)) (hws : ws.Nodup)
    (hs : Inv s) : (ws.foldl body s).parent = s.parent ∧ SameRows k s (ws.foldl body s) ∧
      ∀ v, entry k (ws.foldl body s) v = if v ∈ ws then f v (entry k s v) else entry k s v := by
  induction ws generalizing s with
  | nil => exact ⟨rfl, fun _ _ _ => rfl, by simp⟩
  | cons w ws ih =>
    obtain ⟨hw, hws⟩ := List.nodup_cons.mp hws
    obtain ⟨hinv, ht⟩ := hturn s w hs
    obtain ⟨hparent, hrows, hentry⟩ := ih hws hinv
    refine ⟨hparent.trans ht.parent, fun i j hi => (hrows i j hi).trans (ht.rows i j hi), fun v => ?_⟩
    rw [List.foldl_cons, hentry]
    by_cases hvw : v = w
    · subst hvw
      simp [hw, ht.here]
    · simp [hvw, ht.other v hvw]

def neighbourEntry (adj : Nat → Nat → Nat) (k v : Nat) (x : Nat × Nat) : Nat × Nat :=
  if v = k then x else (adj k v, if adj k v = INFINITY then x.2 else v)

theorem setNeighbour_turn (adj : Nat → Nat → Nat) (k : Nat) (hs : s.parent = fun v => v) (w : Nat) :
    Turn k s w (neighbourEntry adj k w) (setNeighbour adj k s w) := by
  unfold setNeighbour
  by_cases hw : w = k
  · subst hw
    simp only [hs, ne_eq, not_true, if_false]
    exact ⟨rfl, fun _ _ _ => rfl, fun _ _ => rfl, by simp [neighbourEntry]⟩
  · by_cases hinf : adj k w = INFINITY
    · simp only [hs, ne_eq, hw, not_false_eq_true, if_true, Function.update_self, hinf, not_true, if_false]
      exact ⟨hs.symm, fun _ _ _ => rfl, fun v hv => by simp [entry, hv], by simp [entry, neighbourEntry, hw, hinf]⟩
    · simp only [hs, ne_eq, hw, not_false_eq_true, if_true, Function.update_self, hinf]
      refine ⟨hs.symm, fun i j hi => set2_of_ne _ _ (Or.inl hi), fun v hv => ?_, ?_⟩
      · simp [entry, hv, set2_of_ne _ _ (Or.inr hv)]
      · simp [entry, neighbourEntry, hw, hinf]

/-- The entry of a node that is adjacent to `o`, given what is known about `o`. -/
def updatedEntry (D : Doubles) (adj : Nat → Nat → Nat) (p : Nat → Nat) (k o : Nat) (at_o : Nat × Nat)
    (v : Nat) (x : Nat × Nat) : Nat × Nat :=
  if p v ≠ k ∧ D.add at_o.1 (adj o v) < x.1 then (D.add at_o.1 (adj o v), at_o.2) else x

theorem update_turn (D : Doubles) (adj : Nat → Nat → Nat) (w : Nat) :
    Turn k s w (updatedEntry D adj s.parent k o (entry k s o) w) (update D adj k o s w) := by
  unfold update
  by_cases hcond : s.parent w ≠ k ∧ D.add (s.hopcnt o) (adj o w) < s.hopcnt w
  · rw [if_pos hcond]
    refine ⟨rfl, fun i j hi => set2_of_ne _ _ (Or.inl hi), fun v hv => ?_, ?_⟩
    · simp [entry, hv, set2_of_ne _ _ (Or.inr hv)]
    · simp [entry, updatedEntry, hcond]
  · rw [if_neg hcond]
    exact ⟨rfl, fun _ _ _ => rfl, fun _ _ => rfl, (if_neg hcond).symm⟩

theorem loop_setNeighbour (adj : Nat → Nat → Nat) (hs : s.parent = fun v => v) :
    (loop n (setNeighbour adj k) s).parent = s.parent ∧ SameRows k s (loop n (setNeighbour adj k) s) ∧
      ∀ v, entry k (loop n (setNeighbour adj k) s) v =
        if 0 < v ∧ v < n then neighbourEntry adj k v (entry k s v) else entry k s v := by
  simp only [← mem_loop]
  refine foldl_turns (fun s => s.parent = fun v => v) (fun s w hs => ?_) (List.nodup_range' ..) hs
  have hturn := setNeighbour_turn adj k hs w
  exact ⟨hturn.parent.trans hs, hturn⟩

/-- The node `o` has been settled, so that its own entry does not change. -/
theorem loop_update (D : Doubles) (adj : Nat → Nat → Nat) (ho : s.parent o = k) :
    (loop n (update D adj k o) s).parent = s.parent ∧ SameRows k s (loop n (update D adj k o) s) ∧
      ∀ v, entry k (loop n (update D adj k o) s) v =
        if 0 < v ∧ v < n then updatedEntry D adj s.parent k o (entry k s o) v (entry k s v)
        else entry k s v := by
  simp only [← mem_loop]
  refine foldl_turns (fun s' => s'.parent = s.parent ∧ entry k s' o = entry k s o)
    (fun s' w hs' => ?_) (List.nodup_range' ..) ⟨rfl, rfl⟩
  have hturn := update_turn (k := k) (o := o) (s := s') D adj w
  rw [hs'.1, hs'.2] at hturn
  refine ⟨⟨hturn.parent.trans hs'.1, ?_⟩, hturn⟩
  by_cases hw : o = w
  · subst hw
    rw [hturn.here, hs'.2, updatedEntry, if_neg (by simp [ho])]
  · rw [hturn.other o hw, hs'.2]

/-- The nearest node that is not settled, `0` if all of them are too far. -/
theorem loop_nearer (h₀ : s.hopcnt 0 = INFINITY) :
    (loop n (nearer k s) 0 = 0 ∨ (0 < loop n (nearer k s) 0 ∧ loop n (nearer k s) 0 < n) ∧
      s.parent (loop n (nearer k s) 0) ≠ k ∧ s.hopcnt (loop n (nearer k s) 0) < INFINITY) ∧
    ∀ v, 0 < v → v < n → s.parent v ≠ k → s.hopcnt (loop n (nearer k s) 0) ≤ s.hopcnt v := by
  have hfold : ∀ (ws : List Nat) (o : Nat), (ws.foldl (nearer k s) o = o ∨ ws.foldl (nearer k s) o ∈ ws ∧
        s.parent (ws.foldl (nearer k s) o) ≠ k ∧
        s.hopcnt (ws.foldl (nearer k s) o) < s.hopcnt o) ∧
      ∀ v ∈ ws, s.parent v ≠ k → s.hopcnt (ws.foldl (nearer k s) o) ≤ s.hopcnt v := by
    intro ws
    induction ws with
    | nil => exact fun o => ⟨Or.inl rfl, by simp⟩
    | cons w ws ih =>
      intro o
      obtain ⟨hfound, hleast⟩ := ih (nearer k s o w)
      rw [List.foldl_cons]
      generalize ws.foldl (nearer k s) (nearer k s o w) = r at hfound hleast
      have hr : s.hopcnt r ≤ s.hopcnt (nearer k s o w) := by
        rcases hfound with rfl | ⟨-, -, hlt⟩
        · exact le_rfl
        · exact hlt.le
      by_cases hcond : s.parent w ≠ k ∧ s.hopcnt w < s.hopcnt o
      · have hnear : nearer k s o w = w := if_pos hcond
        rw [hnear] at hfound hr
        refine ⟨Or.inr ?_, fun v hv hp => ?_⟩
        · rcases hfound with rfl | ⟨hmem, hp, hlt⟩
          · exact ⟨List.mem_cons_self, hcond⟩
          · exact ⟨List.mem_cons_of_mem _ hmem, hp, hlt.trans hcond.2⟩
        · rcases List.mem_cons.mp hv with rfl | hv
          · exact hr
          · exact hleast v hv hp
      · have hnear : nearer k s o w = o := if_neg hcond
        rw [hnear] at hfound hr
        refine ⟨hfound.imp id fun ⟨hmem, h⟩ => ⟨List.mem_cons_of_mem _ hmem, h⟩, fun v hv hp => ?_⟩
        rcases List.mem_cons.mp hv with rfl | hv
        · exact hr.trans (not_lt.mp fun hlt => hcond ⟨hp, hlt⟩)
        · exact hleast v hv hp
  obtain ⟨hfound, hleast⟩ := hfold (List.range' 1 (n - 1)) 0
  rw [h₀] at hfound
  exact ⟨hfound.imp id fun ⟨hmem, h⟩ => ⟨mem_loop.mp hmem, h⟩,
    fun v hpos hn hp => hleast v (mem_loop.mpr ⟨hpos, hn⟩) hp⟩

end Loops

/-! ## Section 4: One source -/

/-- The matrix says which edges there are. -/
structure Reads (E : Nat → Nat → Nat → Prop) (adj : Nat → Nat → Nat) (n : Nat) : Prop where
  edge : ∀ u v w, E u v w → (0 < u ∧ u < n) ∧ (0 < v ∧ v < n) ∧ adj u v = w
  cost : ∀ u v, adj u v < INFINITY → E u v (adj u v)
  none : ∀ u v, (∀ w, ¬ E u v w) → adj u v = INFINITY

theorem Doubles.add_spec (D : Doubles) (a b : Nat) :
    a + b < INFINITY ∧ D.add a b = a + b ∨ INFINITY ≤ a + b ∧ INFINITY ≤ D.add a b := by
  have hexact := D.exact a b
  have hlarge := D.large a b
  unfold INFINITY
  by_cases h : a + b ≤ 2 ^ 53
  · rw [hexact h]
    omega
  · have := hlarge (by omega)
    omega

section Source

variable {E : Nat → Nat → Nat → Prop} {D : Doubles} {adj : Nat → Nat → Nat} {n k : Nat} {s : Arrays}

/-- The node has been settled. -/
def Settled (n k : Nat) (s : Arrays) (v : Nat) : Prop := 0 < v ∧ v < n ∧ s.parent v = k

/-- The label of a node. The distance count of the source itself is never set. -/
def label (n k : Nat) (s : Arrays) (v : Nat) : Nat :=
  if v = k then 0 else if 0 < v ∧ v < n then s.hopcnt v else INFINITY

/-- The invariant of the loop that settles nodes. -/
structure SourceInv (E : Nat → Nat → Nat → Prop) (n k : Nat) (s : Arrays) : Prop where
  self : s.parent k = k
  labels : Labels E k INFINITY (Settled n k s) (label n k s)
  first : FirstHops E k INFINITY (label n k s) (s.route k)
  none : ∀ v, 0 < v → v < n → ¬ Reaches E k v → s.hopcnt v = INFINITY ∧ s.route k v = 0

theorem label_of_ne {v : Nat} (hpos : 0 < v) (hn : v < n) (hvk : v ≠ k) : label n k s v = s.hopcnt v := by
  simp [label, hpos, hn, hvk]

/-- The source has been settled when its neighbours have their routes. -/
theorem setNeighbour_inv (hE : Reads E adj n) (hk : 0 < k ∧ k < n) (hs : s.parent = fun v => v)
    (hrow : ∀ v, s.route k v = 0) : SourceInv E n k (loop n (setNeighbour adj k) s) := by
  obtain ⟨hparent, -, hentry⟩ := loop_setNeighbour (n := n) (k := k) adj hs
  generalize loop n (setNeighbour adj k) s = s' at hparent hentry
  have hnew : ∀ v, 0 < v → v < n → v ≠ k → s'.hopcnt v = adj k v ∧
      s'.route k v = if adj k v = INFINITY then 0 else v := by
    intro v hpos hn hvk
    have h := hentry v
    rw [if_pos ⟨hpos, hn⟩, neighbourEntry, if_neg hvk] at h
    obtain ⟨hh, hr⟩ := Prod.mk.inj h
    exact ⟨hh, by rw [hr]; exact congrArg (fun x => if adj k v = INFINITY then x else v) (hrow v)⟩
  have hsettled : Settled n k s' = fun v => False ∨ v = k := by
    funext v
    simp only [Settled, hparent, hs, eq_iff_iff, false_or]
    constructor
    · exact fun h => h.2.2
    · rintro rfl
      exact ⟨hk.1, hk.2, rfl⟩
  -- before the neighbours all other nodes are too far
  have hstart : Labels E k INFINITY (fun _ => False)
      (fun v => if v = k then 0 else max INFINITY (label n k s' v)) :=
    Labels.start (by simp) fun v hv => by simp [hv]
  have hedge : ∀ x, x ≠ k → label n k s' x < INFINITY → 0 < x ∧ x < n ∧ E k x (label n k s' x) := by
    intro x hx hlt
    by_cases hrange : 0 < x ∧ x < n
    · rw [label_of_ne hrange.1 hrange.2 hx] at hlt ⊢
      rw [(hnew x hrange.1 hrange.2 hx).1] at hlt ⊢
      exact ⟨hrange.1, hrange.2, hE.cost k x hlt⟩
    · simp [label, hx, hrange] at hlt
  have hrelaxed : Relaxed E INFINITY (fun _ => False) k
      (fun v => if v = k then 0 else max INFINITY (label n k s' v)) (label n k s') := by
    refine ⟨fun x hx => ?_, fun x => ?_, fun x hx => ?_, fun x w he _ hxk _ => ?_⟩
    · obtain rfl := hx.resolve_left id
      simp [label]
    · by_cases hx : x = k
      · simp [hx, label]
      · simp [hx]
    · by_cases hxk : x = k
      · exact Or.inl (by simp [hxk, label])
      · obtain ⟨-, -, he⟩ := hedge x hxk hx
        exact Or.inr ⟨_, he, by simp⟩
    · obtain ⟨-, ⟨hpos, hn⟩, hcost⟩ := hE.edge k x w he
      rw [label_of_ne hpos hn hxk, (hnew x hpos hn hxk).1, hcost]
      simp
  refine ⟨by rw [hparent, hs], ?_, fun x hx hlt => ?_, fun v hpos hn hv => ?_⟩
  · rw [hsettled]
    exact hstart.settle id (by simp [INFINITY]) (fun y _ => by simp) hrelaxed
  · obtain ⟨hpos, hn, he⟩ := hedge x hx hlt
    have hroute : s'.route k x = x := by
      rw [(hnew x hpos hn hx).2, if_neg]
      rw [label_of_ne hpos hn hx, (hnew x hpos hn hx).1] at hlt
      exact hlt.ne
    rw [hroute]
    exact ⟨_, 0, he, Walk.nil x, rfl⟩
  · have hvk : v ≠ k := fun h => hv (h ▸ Reaches.refl v)
    have hinf : adj k v = INFINITY := hE.none k v fun w he => hv ⟨w, Walk.single he⟩
    obtain ⟨hh, hr⟩ := hnew v hpos hn hvk
    exact ⟨hh.trans hinf, by rw [hr, if_pos hinf]⟩

/-- No node that is not settled is near enough. -/
def Complete (n k : Nat) (s : Arrays) : Prop := ∀ y, ¬ Settled n k s y → INFINITY ≤ label n k s y

/-- The nodes that have not been settled. -/
def unsettled (n k : Nat) (s : Arrays) : Nat :=
  ((List.range' 1 (n - 1)).filter fun v => s.parent v ≠ k).length

theorem SourceInv.none_of_zero (hinv : SourceInv E n k s) :
    SourceInv E n k { s with hopcnt := Function.update s.hopcnt 0 INFINITY } := by
  have hhop : ∀ v, 0 < v → Function.update s.hopcnt 0 INFINITY v = s.hopcnt v :=
    fun v hv => Function.update_of_ne hv.ne' ..
  have hlabel : label n k { s with hopcnt := Function.update s.hopcnt 0 INFINITY } = label n k s := by
    funext v
    unfold label
    by_cases hrange : 0 < v ∧ v < n
    · simp only [hhop v hrange.1]
    · simp only [hrange, if_false]
  refine ⟨hinv.self, ?_, ?_, fun v hpos hn hv => ?_⟩
  · rw [hlabel]
    exact hinv.labels
  · rw [hlabel]
    exact hinv.first
  · simp only [hhop v hpos]
    exact hinv.none v hpos hn hv

section Nearest

variable {o : Nat}

/-- The nearest node can be settled. -/
structure Nearest (n k : Nat) (s : Arrays) (o : Nat) : Prop where
  range : 0 < o ∧ o < n
  parent : s.parent o ≠ k
  near : s.hopcnt o < INFINITY
  least : ∀ v, 0 < v → v < n → s.parent v ≠ k → s.hopcnt o ≤ s.hopcnt v

theorem Nearest.ne (hinv : SourceInv E n k s) (ho : Nearest n k s o) : o ≠ k :=
  fun h => ho.parent (h ▸ hinv.self)

theorem Nearest.label_eq (hinv : SourceInv E n k s) (ho : Nearest n k s o) : label n k s o = s.hopcnt o :=
  label_of_ne ho.range.1 ho.range.2 (ho.ne hinv)

/-- The arrays when `o` has been settled. -/
structure Updated (E : Nat → Nat → Nat → Prop) (n k o : Nat) (s s' : Arrays) : Prop where
  parent : s'.parent = Function.update s.parent o k
  rows : SameRows k s s'
  change : ∀ x, s'.hopcnt x = s.hopcnt x ∧ s'.route k x = s.route k x ∨
    ((0 < x ∧ x < n) ∧ ¬ Settled n k s x ∧ x ≠ o) ∧ s'.hopcnt x < s.hopcnt x ∧ s'.route k x = s.route k o ∧
        (INFINITY ≤ s'.hopcnt x ∨ ∃ w, E o x w ∧ s'.hopcnt x = s.hopcnt o + w)
  relax : ∀ x w, E o x w → ¬ Settled n k s x → x ≠ o → s.hopcnt o + w < INFINITY → s'.hopcnt x ≤ s.hopcnt o + w

theorem loop_updated (D : Doubles) (hE : Reads E adj n) :
    Updated E n k o s (loop n (update D adj k o) { s with parent := Function.update s.parent o k }) := by
  obtain ⟨hparent, hrows, hentry⟩ := loop_update (n := n) (k := k) (o := o)
    (s := { s with parent := Function.update s.parent o k }) D adj (Function.update_self ..)
  generalize loop n (update D adj k o) { s with parent := Function.update s.parent o k } = s'
    at hparent hrows hentry ⊢
  -- what the loop does with a node that is not settled
  have hopen : ∀ x, 0 < x → x < n → ¬ Settled n k s x → x ≠ o →
      entry k s' x = if D.add (s.hopcnt o) (adj o x) < s.hopcnt x then
        (D.add (s.hopcnt o) (adj o x), s.route k o) else entry k s x := by
    intro x hpos hn hx hxo
    have hp : s.parent x ≠ k := fun h => hx ⟨hpos, hn, h⟩
    have h := hentry x
    rw [if_pos ⟨hpos, hn⟩, updatedEntry] at h
    simpa only [entry, Function.update_of_ne hxo, ne_eq, hp, not_false_eq_true, true_and] using h
  have hclosed : ∀ x, ¬ ((0 < x ∧ x < n) ∧ ¬ Settled n k s x ∧ x ≠ o) → entry k s' x = entry k s x := by
    intro x hx
    have h := hentry x
    by_cases hrange : 0 < x ∧ x < n
    · have hp : (Function.update s.parent o k) x = k := by
        by_cases hxo : x = o
        · rw [hxo, Function.update_self]
        · rw [Function.update_of_ne hxo]
          by_contra hp
          exact hx ⟨hrange, fun hset => hp hset.2.2, hxo⟩
      rw [if_pos hrange, updatedEntry, if_neg (fun hcond => hcond.1 hp)] at h
      exact h
    · rw [if_neg hrange] at h
      exact h
  refine ⟨hparent, hrows, fun x => ?_, fun x w he hx hxo hlt => ?_⟩
  · by_cases hx : (0 < x ∧ x < n) ∧ ¬ Settled n k s x ∧ x ≠ o
    · have h := hopen x hx.1.1 hx.1.2 hx.2.1 hx.2.2
      by_cases hlt : D.add (s.hopcnt o) (adj o x) < s.hopcnt x
      · rw [if_pos hlt] at h
        obtain ⟨hh, hr⟩ := Prod.mk.inj h
        refine Or.inr ⟨hx, hh ▸ hlt, hr, ?_⟩
        rw [hh]
        rcases D.add_spec (s.hopcnt o) (adj o x) with ⟨hsum, hexact⟩ | ⟨-, hlarge⟩
        · exact Or.inr ⟨adj o x, hE.cost o x (by omega), hexact⟩
        · exact Or.inl hlarge
      · rw [if_neg hlt] at h
        exact Or.inl (Prod.mk.inj h)
    · exact Or.inl (Prod.mk.inj (hclosed x hx))
  · obtain ⟨-, ⟨hpos, hn⟩, rfl⟩ := hE.edge o x w he
    have h := hopen x hpos hn hx hxo
    have hexact : D.add (s.hopcnt o) (adj o x) = s.hopcnt o + adj o x := by
      rcases D.add_spec (s.hopcnt o) (adj o x) with ⟨-, hexact⟩ | ⟨hge, -⟩
      · exact hexact
      · omega
    rw [hexact] at h
    by_cases hlt' : s.hopcnt o + adj o x < s.hopcnt x
    · rw [if_pos hlt'] at h
      exact (Prod.mk.inj h).1.le
    · rw [if_neg hlt'] at h
      rw [(Prod.mk.inj h).1]
      exact not_lt.mp hlt'

theorem Updated.unsettled_lt {s' : Arrays} (ho : Nearest n k s o) (hs' : Updated E n k o s s') :
    unsettled n k s' < unsettled n k s := by
  have hne : ∀ v, s'.parent v ≠ k ↔ s.parent v ≠ k ∧ v ≠ o := by
    intro v
    rw [hs'.parent]
    by_cases hv : v = o
    · simp [hv]
    · simp [hv]
  have hmem : o ∈ (List.range' 1 (n - 1)).filter fun v => s.parent v ≠ k :=
    List.mem_filter.mpr ⟨mem_loop.mpr ho.range, by simpa using ho.parent⟩
  have hfilter : (List.range' 1 (n - 1)).filter (fun v => s'.parent v ≠ k) =
      ((List.range' 1 (n - 1)).filter fun v => s.parent v ≠ k).filter fun v => v ≠ o := by
    rw [List.filter_filter]
    refine List.filter_congr fun v _ => ?_
    simp [hne v, and_comm]
  unfold unsettled
  rw [hfilter]
  exact List.length_filter_lt_length_iff_exists.mpr ⟨o, hmem, by simp⟩

/-- The invariant holds again when `o` has been settled. -/
theorem SourceInv.settle {s' : Arrays} (hE : Reads E adj n) (hk : 0 < k ∧ k < n)
    (hinv : SourceInv E n k s) (ho : Nearest n k s o) (hs' : Updated E n k o s s') : SourceInv E n k s' := by
  have hok := ho.ne hinv
  have hlabel_o := ho.label_eq hinv
  have hself : Settled n k s k := ⟨hk.1, hk.2, hinv.self⟩
  have hopen : ¬ Settled n k s o := fun h => ho.parent h.2.2
  have hsettled : Settled n k s' = fun y => Settled n k s y ∨ y = o := by
    funext y
    unfold Settled
    rw [hs'.parent, eq_iff_iff]
    by_cases hy : y = o
    · simp [hy, ho.range]
    · simp [hy]
  -- what changes, in terms of the labels
  have hchange : ∀ x, label n k s' x = label n k s x ∧ s'.route k x = s.route k x ∨
      (¬ Settled n k s x ∧ x ≠ o) ∧ label n k s' x < label n k s x ∧ s'.route k x = s.route k o ∧
        (INFINITY ≤ label n k s' x ∨ ∃ w, E o x w ∧ label n k s' x = label n k s o + w) := by
    intro x
    rcases hs'.change x with ⟨hh, hr⟩ | ⟨⟨hrange, hx⟩, hlt, hr, hnew⟩
    · exact Or.inl ⟨by simp only [label, hh], hr⟩
    · have hxk : x ≠ k := fun h => hx.1 (h ▸ hself)
      rw [label_of_ne hrange.1 hrange.2 hxk, label_of_ne hrange.1 hrange.2 hxk, hlabel_o]
      exact Or.inr ⟨hx, hlt, hr, hnew⟩
  have hmin : ∀ y, ¬ Settled n k s y → label n k s o ≤ label n k s y := by
    intro y hy
    have hyk : y ≠ k := fun h => hy (h ▸ hself)
    rw [hlabel_o]
    by_cases hrange : 0 < y ∧ y < n
    · rw [label_of_ne hrange.1 hrange.2 hyk]
      exact ho.least y hrange.1 hrange.2 fun hp => hy ⟨hrange.1, hrange.2, hp⟩
    · simpa [label, hyk, hrange] using ho.near.le
  have hrelaxed : Relaxed E INFINITY (Settled n k s) o (label n k s) (label n k s') := by
    refine ⟨fun x hx => ?_, fun x => ?_, fun x hx => ?_, fun x w he hx hxo hlt => ?_⟩
    · rcases hchange x with ⟨hh, -⟩ | ⟨⟨hset, hxo⟩, -⟩
      · exact hh
      · exact absurd hx (not_or.mpr ⟨hset, hxo⟩)
    · rcases hchange x with ⟨hh, -⟩ | ⟨-, hlt, -⟩
      · exact hh.le
      · exact hlt.le
    · rcases hchange x with ⟨hh, -⟩ | ⟨-, -, -, hge | hnew⟩
      · exact Or.inl hh
      · omega
      · exact Or.inr hnew
    · obtain ⟨-, ⟨hpos, hn⟩, -⟩ := hE.edge o x w he
      have hxk : x ≠ k := fun h => hx (h ▸ hself)
      rw [label_of_ne hpos hn hxk]
      rw [hlabel_o] at hlt ⊢
      exact hs'.relax x w he hx hxo hlt
  have hnear : label n k s o < INFINITY := hlabel_o ▸ ho.near
  refine ⟨?_, ?_, hinv.first.settle hok hnear fun x => ?_, fun v hpos hn hv => ?_⟩
  · rw [hs'.parent, Function.update_of_ne hok.symm]
    exact hinv.self
  · rw [hsettled]
    exact hinv.labels.settle hopen hnear hmin hrelaxed
  · rcases hchange x with hsame | ⟨-, -, hr, hge | hnew⟩
    · exact Or.inl hsame
    · exact Or.inr (Or.inl hge)
    · exact Or.inr (Or.inr ⟨hr, hnew⟩)
  · rcases hs'.change v with ⟨hh, hr⟩ | ⟨-, hlt, -, hge | ⟨w, he, -⟩⟩
    · rw [hh, hr]
      exact hinv.none v hpos hn hv
    · have := (hinv.none v hpos hn hv).1
      omega
    · -- an edge from `o` would reach it
      exact absurd (Reaches.trans ⟨_, hinv.labels.walk o hnear⟩ ⟨w, Walk.single he⟩) hv

end Nearest

/-- **Step lemma.** One turn settles the nearest node, if one is near enough. -/
theorem settle_inv (hE : Reads E adj n) (hk : 0 < k ∧ k < n) (hinv : SourceInv E n k s) (v : Nat) :
    SourceInv E n k (settle D adj n k s v) ∧ SameRows k s (settle D adj n k s v) ∧
      (Complete n k (settle D adj n k s v) ∨ ¬ Complete n k s ∧
        unsettled n k (settle D adj n k s v) < unsettled n k s) := by
  have hinv₁ := hinv.none_of_zero
  have hrun : ∀ s₁ o, ({ s with hopcnt := Function.update s.hopcnt 0 INFINITY } : Arrays) = s₁ →
      loop n (nearer k s₁) 0 = o → settle D adj n k s v =
        if o = 0 then { s₁ with parent := Function.update s₁.parent o k }
        else loop n (update D adj k o) { s₁ with parent := Function.update s₁.parent o k } := by
    intro s₁ o hs₁ ho
    subst hs₁ ho
    rfl
  generalize hs₁ : ({ s with hopcnt := Function.update s.hopcnt 0 INFINITY } : Arrays) = s₁ at hinv₁
  have hzero : s₁.hopcnt 0 = INFINITY := by
    rw [← hs₁]
    exact Function.update_self 0 INFINITY s.hopcnt
  have hrows₁ : SameRows k s s₁ := by
    rw [← hs₁]
    exact fun _ _ _ => rfl
  have hunsettled₁ : unsettled n k s₁ = unsettled n k s := by
    rw [← hs₁]
    rfl
  obtain ⟨hfound, hleast⟩ := loop_nearer (n := n) (k := k) hzero
  generalize ho : loop n (nearer k s₁) 0 = o at hfound hleast
  rw [hrun s₁ o hs₁ ho]
  rcases hfound with ho₀ | ⟨hrange, hp, hnear⟩
  · -- the parent of node 0 is not looked at
    subst ho₀
    rw [if_pos rfl]
    have hparent : ∀ v, 0 < v → (Function.update s₁.parent 0 k) v = s₁.parent v :=
      fun v hv => Function.update_of_ne hv.ne' ..
    have hsettled : Settled n k { s₁ with parent := Function.update s₁.parent 0 k } = Settled n k s₁ := by
      funext v
      unfold Settled
      by_cases hv : 0 < v
      · simp only [hparent v hv]
      · simp only [hv, false_and]
    refine ⟨⟨?_, ?_, hinv₁.first, hinv₁.none⟩, hrows₁, Or.inl fun y hy => ?_⟩
    · exact (hparent k hk.1).trans hinv₁.self
    · rw [hsettled]
      exact hinv₁.labels
    · rw [hsettled] at hy
      have hyk : y ≠ k := fun h => hy (by rw [h]; exact ⟨hk.1, hk.2, hinv₁.self⟩)
      by_cases hy₀ : 0 < y ∧ y < n
      · have hfar := hleast y hy₀.1 hy₀.2 fun hp => hy ⟨hy₀.1, hy₀.2, hp⟩
        rw [hzero] at hfar
        simpa [label, hyk, hy₀] using hfar
      · simp [label, hyk, hy₀]
  · have ho : Nearest n k s₁ o := ⟨hrange, hp, hnear, hleast⟩
    have hs' := loop_updated D (k := k) (o := o) (s := s₁) hE
    rw [if_neg hrange.1.ne']
    refine ⟨hinv₁.settle hE hk ho hs', fun i j hi => (hs'.rows i j hi).trans (hrows₁ i j hi),
      Or.inr ⟨fun hcomplete => ?_, ?_⟩⟩
    · have hsettled : Settled n k s₁ o ↔ Settled n k s o := by
        rw [← hs₁]
        exact Iff.rfl
      have hfar := hcomplete o fun h => hp (hsettled.mpr h).2.2
      have hhop : s₁.hopcnt o = s.hopcnt o := by
        rw [← hs₁]
        exact Function.update_of_ne hrange.1.ne' _ _
      rw [label_of_ne hrange.1 hrange.2 (ho.ne hinv₁), ← hhop] at hfar
      omega
    · rw [← hunsettled₁]
      exact hs'.unsettled_lt ho

/-- **Run lemma.** Each turn settles a node, until the others are too far. -/
theorem settle_run (hE : Reads E adj n) (hk : 0 < k ∧ k < n) (vs : List Nat) (hinv : SourceInv E n k s) :
    SourceInv E n k (vs.foldl (settle D adj n k) s) ∧ SameRows k s (vs.foldl (settle D adj n k) s) ∧
      (Complete n k s → Complete n k (vs.foldl (settle D adj n k) s)) ∧
      (Complete n k (vs.foldl (settle D adj n k) s) ∨
        unsettled n k (vs.foldl (settle D adj n k) s) + vs.length ≤ unsettled n k s) := by
  induction vs generalizing s with
  | nil => exact ⟨hinv, fun _ _ _ => rfl, id, Or.inr le_rfl⟩
  | cons v vs ih =>
    obtain ⟨hinv₁, hrows₁, hstep⟩ := settle_inv (D := D) hE hk hinv v
    obtain ⟨hinv', hrows', hkeep, hend⟩ := ih hinv₁
    rw [List.foldl_cons, List.length_cons]
    refine ⟨hinv', fun i j hi => (hrows' i j hi).trans (hrows₁ i j hi), fun hcomplete => ?_, ?_⟩
    · exact hkeep (hstep.resolve_right fun h => h.1 hcomplete)
    · rcases hstep with hdone | ⟨-, hlt⟩
      · exact Or.inl (hkeep hdone)
      · exact hend.imp id fun hle => by omega

/-- The routes of a source are right: the next hop to a node is on a shortest path, and there is none
    to a node that is not reached. -/
structure RowOk (E : Nat → Nat → Nat → Prop) (n k : Nat) (row : Nat → Nat) : Prop where
  hop : ∀ v c, v ≠ k → IsLeast {c | Walk E k v c} c → c < INFINITY →
    ∃ w c', E k (row v) w ∧ Walk E (row v) v c' ∧ w + c' = c
  none : ∀ v, 0 < v → v < n → ¬ Reaches E k v → row v = 0

theorem fromSource_spec (hE : Reads E adj n) (hk : 0 < k ∧ k < n) (hrow : ∀ v, s.route k v = 0) :
    RowOk E n k ((fromSource D adj n s k).route k) ∧ SameRows k s (fromSource D adj n s k) := by
  have hinv := setNeighbour_inv (s := { s with parent := fun v => v }) hE hk rfl hrow
  obtain ⟨-, hrows, -⟩ := loop_setNeighbour (n := n) (k := k) (s := { s with parent := fun v => v })
    adj rfl
  have hrun : fromSource D adj n s k = loop n (settle D adj n k)
      (loop n (setNeighbour adj k) { s with parent := fun v => v }) := rfl
  generalize loop n (setNeighbour adj k) { s with parent := fun v => v } = s₁ at hinv hrows hrun
  obtain ⟨hinv', hrows', -, hend⟩ := settle_run (D := D) hE hk (List.range' 1 (n - 1)) hinv
  rw [hrun]
  unfold loop
  generalize (List.range' 1 (n - 1)).foldl (settle D adj n k) s₁ = s' at hinv' hrows' hend
  -- the source itself is settled, so that there are enough turns
  have hcomplete : Complete n k s' := by
    refine hend.resolve_right fun hle => ?_
    have hlt : unsettled n k s₁ < (List.range' 1 (n - 1)).length :=
      List.length_filter_lt_length_iff_exists.mpr ⟨k, mem_loop.mpr hk, by simp [hinv.self]⟩
    omega
  refine ⟨⟨fun v c hv hleast hlt => ?_, fun v hpos hn hv => (hinv'.none v hpos hn hv).2⟩,
    fun i j hi => (hrows' i j hi).trans (hrows i j hi)⟩
  obtain ⟨hset, -⟩ := hinv'.labels.complete hcomplete hleast.1 hlt
  have hlabel : label n k s' v = c := (hinv'.labels.least v hset).unique hleast
  rw [← hlabel] at hlt ⊢
  exact hinv'.first v hv hlt

/-- All sources one after the other. -/
theorem fromSource_run (hE : Reads E adj n) (ks : List Nat) (hnodup : ks.Nodup)
    (hks : ∀ k ∈ ks, 0 < k ∧ k < n) (hrow : ∀ k ∈ ks, ∀ v, s.route k v = 0) :
    (∀ k ∈ ks, RowOk E n k ((ks.foldl (fromSource D adj n) s).route k)) ∧
      ∀ k, k ∉ ks → (ks.foldl (fromSource D adj n) s).route k = s.route k := by
  induction ks generalizing s with
  | nil => exact ⟨by simp, fun _ _ => rfl⟩
  | cons k ks ih =>
    obtain ⟨hk, hnodup⟩ := List.nodup_cons.mp hnodup
    obtain ⟨hok, hrows⟩ := fromSource_spec (D := D) hE (hks k List.mem_cons_self) (hrow k List.mem_cons_self)
    have hne : ∀ i ∈ ks, i ≠ k := fun i hi heq => hk (heq ▸ hi)
    obtain ⟨hall, hother⟩ := ih (s := fromSource D adj n s k) hnodup
      (fun i hi => hks i (List.mem_cons_of_mem _ hi)) fun i hi v => by
        rw [hrows i v (hne i hi)]
        exact hrow i (List.mem_cons_of_mem _ hi) v
    rw [List.foldl_cons]
    refine ⟨fun i hi => ?_, fun i hi => ?_⟩
    · rcases List.mem_cons.mp hi with rfl | hi
      · rw [hother i hk]
        exact hok
      · exact hall i hi
    · rw [List.mem_cons, not_or] at hi
      rw [hother i hi.2]
      funext v
      exact hrows i v hi.1

theorem foldl_setSelf (ks : List Nat) (route : Nat → Nat → Nat) (i j : Nat) :
    ks.foldl setSelf route i j = if i = j ∧ i ∈ ks then i else route i j := by
  induction ks generalizing route with
  | nil => simp
  | cons k ks ih =>
    rw [List.foldl_cons, ih]
    by_cases hij : i = j ∧ i ∈ ks
    · simp [hij.1.symm, hij.2]
    · rw [if_neg hij, setSelf]
      by_cases hk : i = k ∧ j = k
      · obtain ⟨rfl, rfl⟩ := hk
        simp
      · rw [set2_of_ne _ _ (not_and_or.mp hk), if_neg]
        rintro ⟨rfl, hmem⟩
        rcases List.mem_cons.mp hmem with rfl | hmem
        · exact hk ⟨rfl, rfl⟩
        · exact hij ⟨rfl, hmem⟩

theorem compute_routes_spec (hE : Reads E adj n) (hopcnt : Nat → Nat) (hk : 0 < k ∧ k < n) :
    RowOk E n k (compute_routes D hopcnt adj n k) := by
  obtain ⟨hall, -⟩ := fromSource_run (D := D) (s := ⟨fun _ => 0, hopcnt, fun _ _ => 0⟩) hE
    (List.range' 1 (n - 1)) (List.nodup_range' ..) (fun k hk => mem_loop.mp hk) fun _ _ _ => rfl
  have hok := hall k (mem_loop.mpr hk)
  have hself : ∀ v, v ≠ k → compute_routes D hopcnt adj n k v =
      ((List.range' 1 (n - 1)).foldl (fromSource D adj n) ⟨fun _ => 0, hopcnt, fun _ _ => 0⟩).route k v :=
    fun v hv => (foldl_setSelf _ _ k v).trans (if_neg fun h => hv h.1.symm)
  refine ⟨fun v c hv hleast hlt => ?_, fun v hpos hn hv => ?_⟩
  · rw [hself v hv]
    exact hok.hop v c hv hleast hlt
  · rw [hself v fun h => hv (h ▸ Reaches.refl v)]
    exact hok.none v hpos hn hv

end Source

/-! ## Section 5: The edges that have been inserted -/

/-- What is given to `routing_insert`. -/
structure Insertion where
  sid : Nat
  tid : Nat
  cost : Nat

def insertAll (r : Routing) (xs : List Insertion) : Routing :=
  xs.foldl (fun r x => routing_insert r x.sid x.tid x.cost) r

/-- The last cost that was inserted for an ordered pair. -/
def lastCost (xs : List Insertion) (u v : Nat) : Option Nat :=
  (xs.reverse.find? fun x => x.sid = u ∧ x.tid = v).map (·.cost)

def Edge (xs : List Insertion) (u v w : Nat) : Prop := lastCost xs u v = some w

instance (xs : List Insertion) (u v w : Nat) : Decidable (Edge xs u v w) :=
  inferInstanceAs (Decidable (lastCost xs u v = some w))

/-- The edges between the numbers that are used inside. -/
def Shifted (xs : List Insertion) (u v w : Nat) : Prop := 0 < u ∧ 0 < v ∧ Edge xs (u - 1) (v - 1) w

variable {xs : List Insertion} {r : Routing} {u v w c : Nat}

theorem walk_shift (h : Walk (Edge xs) u v c) : Walk (Shifted xs) (u + 1) (v + 1) c := by
  induction h with
  | nil v => exact Walk.nil _
  | cons he _ ih => exact Walk.cons ⟨Nat.succ_pos _, Nat.succ_pos _, he⟩ ih

theorem walk_unshift (h : Walk (Shifted xs) u v c) : Walk (Edge xs) (u - 1) (v - 1) c := by
  induction h with
  | nil v => exact Walk.nil _
  | cons he _ ih => exact Walk.cons he.2.2 ih

theorem shifted_walk_iff : Walk (Shifted xs) (u + 1) (v + 1) c ↔ Walk (Edge xs) u v c :=
  ⟨walk_unshift, walk_shift⟩

theorem Edge.mem (h : Edge xs u v w) : ∃ x ∈ xs, x.sid = u ∧ x.tid = v ∧ x.cost = w := by
  obtain ⟨x, hx, rfl⟩ := Option.map_eq_some_iff.mp h
  have hends := List.find?_some hx
  simp only [decide_eq_true_eq] at hends
  exact ⟨x, List.mem_reverse.mp (List.mem_of_find?_eq_some hx), hends.1, hends.2, rfl⟩

theorem insertAll_append (r : Routing) (xs : List Insertion) (x : Insertion) :
    insertAll r (xs ++ [x]) = routing_insert (insertAll r xs) x.sid x.tid x.cost := by
  simp [insertAll]

theorem lt_size {x : Insertion} (hx : x ∈ xs) :
    x.sid + 1 < (insertAll r xs).size ∧ x.tid + 1 < (insertAll r xs).size := by
  induction xs using List.reverseRecOn with
  | nil => cases hx
  | append_singleton xs y ih =>
    rw [insertAll_append, routing_insert]
    rcases List.mem_append.mp hx with hx | hx
    · have := ih hx
      simp only
      split_ifs <;> omega
    · obtain rfl := List.mem_singleton.mp hx
      simp only
      split_ifs <;> omega

/-- The matrix that `routing_calc` fills in. -/
def matrix (r : Routing) : Nat → Nat → Nat := r.queued_adj_entries.foldl add_to_adj fun _ _ => INFINITY

theorem matrix_insertAll (hr : r.queued_adj_entries = []) (u v : Nat) : matrix (insertAll r xs) u v =
      if 0 < u ∧ 0 < v then (lastCost xs (u - 1) (v - 1)).getD INFINITY else INFINITY := by
  induction xs using List.reverseRecOn with
  | nil =>
    show matrix r u v = _
    rw [matrix, hr]
    simp [lastCost]
  | append_singleton xs x ih =>
    have hstep : matrix (insertAll r (xs ++ [x])) =
        set2 (matrix (insertAll r xs)) (x.sid + 1) (x.tid + 1) x.cost := by
      simp [matrix, insertAll_append, routing_insert, add_to_adj]
    have hlast : lastCost (xs ++ [x]) (u - 1) (v - 1) =
        if x.sid = u - 1 ∧ x.tid = v - 1 then some x.cost else lastCost xs (u - 1) (v - 1) := by
      unfold lastCost
      rw [List.reverse_append, List.reverse_singleton, List.singleton_append, List.find?_cons]
      by_cases hx : x.sid = u - 1 ∧ x.tid = v - 1 <;> simp [hx]
    rw [hstep, hlast]
    by_cases hx : u = x.sid + 1 ∧ v = x.tid + 1
    · obtain ⟨rfl, rfl⟩ := hx
      simp
    · rw [set2_of_ne _ _ (not_and_or.mp hx), ih]
      by_cases hpos : 0 < u ∧ 0 < v
      · have hne : ¬ (x.sid = u - 1 ∧ x.tid = v - 1) := by omega
        rw [if_neg hne]
      · rw [if_neg hpos, if_neg hpos]

theorem reads_matrix (xs : List Insertion) (hr : r.queued_adj_entries = []) :
    Reads (Shifted xs) (matrix (insertAll r xs)) (insertAll r xs).size := by
  refine ⟨fun u v w h => ?_, fun u v hlt => ?_, fun u v hnone => ?_⟩
  · obtain ⟨x, hx, hsid, htid, -⟩ := h.2.2.mem
    have hsize := lt_size (r := r) hx
    obtain ⟨hu, hv, hcost⟩ := h
    refine ⟨⟨hu, by omega⟩, ⟨hv, by omega⟩, ?_⟩
    rw [matrix_insertAll hr, if_pos ⟨hu, hv⟩, hcost]
    rfl
  · rw [matrix_insertAll hr] at hlt ⊢
    by_cases hpos : 0 < u ∧ 0 < v
    · rw [if_pos hpos] at hlt ⊢
      cases hcost : lastCost xs (u - 1) (v - 1) with
      | none => simp [hcost] at hlt
      | some w => exact ⟨hpos.1, hpos.2, hcost⟩
    · rw [if_neg hpos] at hlt
      exact absurd hlt (lt_irrefl _)
  · rw [matrix_insertAll hr]
    by_cases hpos : 0 < u ∧ 0 < v
    · rw [if_pos hpos]
      cases hcost : lastCost xs (u - 1) (v - 1) with
      | none => rfl
      | some w => exact absurd ⟨hpos.1, hpos.2, hcost⟩ (hnone w)
    · rw [if_neg hpos]

/-! ## Section 6: Following the routes -/

/-- The node that a lookup leads to. -/
def nextHop (r : Routing) (d u : Nat) : Nat := (routing_lookup r u d).toNat

section Lookup

variable {D : Doubles} {hopcnt : Nat → Nat} {s d : Nat}

theorem routing_lookup_calc (r : Routing) (s d : Nat) : routing_lookup (routing_calc D hopcnt r) s d =
      if s + 1 ≥ r.size ∨ d + 1 ≥ r.size then (-2 : Int)
      else (compute_routes D hopcnt (matrix r) r.size (s + 1) (d + 1) : Int) - 1 := rfl

theorem Walk.mem (h : Walk (Edge xs) s d c) (hne : s ≠ d) :
    s + 1 < (insertAll r xs).size ∧ d + 1 < (insertAll r xs).size := by
  induction h with
  | nil v => exact absurd rfl hne
  | @cons u v t w c he hwalk ih =>
    obtain ⟨x, hx, rfl, rfl, -⟩ := he.mem
    have hsize := lt_size (r := r) hx
    by_cases ht : x.tid = t
    · exact ht ▸ hsize
    · exact ⟨hsize.1, (ih ht).2⟩

theorem nextHop_spec (hr : r.queued_adj_entries = []) (hne : s ≠ d) (hc : c < INFINITY)
    (hleast : IsLeast {c | Walk (Edge xs) s d c} c) :
    ∃ w c', Edge xs s (nextHop (routing_calc D hopcnt (insertAll r xs)) d s) w ∧
      Walk (Edge xs) (nextHop (routing_calc D hopcnt (insertAll r xs)) d s) d c' ∧ w + c' = c := by
  obtain ⟨hs, hd⟩ := Walk.mem (r := r) hleast.1 hne
  have hrow := compute_routes_spec (D := D) (k := s + 1) (reads_matrix xs hr) hopcnt ⟨Nat.succ_pos s, hs⟩
  have hleast' : IsLeast {c | Walk (Shifted xs) (s + 1) (d + 1) c} c := by
    simpa only [shifted_walk_iff] using hleast
  obtain ⟨w, c', he, hwalk, hsum⟩ := hrow.hop (d + 1) c (by omega) hleast' hc
  have hnext : nextHop (routing_calc D hopcnt (insertAll r xs)) d s =
      compute_routes D hopcnt (matrix (insertAll r xs)) (insertAll r xs).size (s + 1) (d + 1) - 1 := by
    rw [nextHop, routing_lookup_calc, if_neg (by omega)]
    have := he.2.1
    omega
  rw [hnext]
  exact ⟨w, c', he.2.2, walk_unshift hwalk, hsum⟩

/-- **Main result.** After the routes have been calculated, from the insertions since the last time,
    following them is a shortest path, wherever there is one that costs less than `INFINITY`. No route
    is reported where there is no path. -/
theorem routing_calc_shortest (D : Doubles) (hopcnt : Nat → Nat) (r : Routing)
    (hr : r.queued_adj_entries = []) (xs : List Insertion) (hpos : ∀ x ∈ xs, 0 < x.cost) (s d : Nat) :
    (∀ c, IsLeast {c | Walk (Edge xs) s d c} c → c < INFINITY →
      Hops (Edge xs) (nextHop (routing_calc D hopcnt (insertAll r xs)) d) d s c) ∧
    (¬ Reaches (Edge xs) s d → routing_lookup (routing_calc D hopcnt (insertAll r xs)) s d < 0) := by
  refine ⟨fun c hleast hc => ?_, fun hnot => ?_⟩
  · have hcost : ∀ u v w, Edge xs u v w → 0 < w := by
      intro u v w he
      obtain ⟨x, hx, -, -, rfl⟩ := he.mem
      exact hpos x hx
    exact hops_least hcost (fun u c hu hc hl => nextHop_spec hr hu hc hl) c s hc hleast
  · rw [routing_lookup_calc]
    by_cases hrange : s + 1 ≥ (insertAll r xs).size ∨ d + 1 ≥ (insertAll r xs).size
    · rw [if_pos hrange]
      decide
    · rw [if_neg hrange]
      have hrow := compute_routes_spec (D := D) (k := s + 1) (reads_matrix xs hr) hopcnt ⟨Nat.succ_pos s, by omega⟩
      have hnone : compute_routes D hopcnt (matrix (insertAll r xs)) (insertAll r xs).size (s + 1) (d + 1) = 0 :=
        hrow.none (d + 1) (Nat.succ_pos d) (by omega) fun h => hnot (h.imp fun c => walk_unshift)
      rw [hnone]
      decide

/-- Sums of small numbers. -/
def exactDoubles : Doubles := ⟨fun a b => a + b, fun _ _ _ => rfl, fun _ _ h => h.le⟩

/-- Two edges that are cheaper than the direct one. -/
def detour : List Insertion := [⟨0, 1, 1⟩, ⟨1, 2, 1⟩, ⟨0, 2, 5⟩]

theorem detour_taken : Hops (Edge detour)
    (nextHop (routing_calc exactDoubles (fun _ => 0) (insertAll routing_init detour)) 2) 2 0 2 := by
  have h₀₁ : Edge detour 0 1 1 := by decide
  have h₁₂ : Edge detour 1 2 1 := by decide
  have hpos : ∀ x ∈ detour, 0 < x.cost := by decide
  refine (routing_calc_shortest exactDoubles (fun _ => 0) routing_init rfl detour hpos 0 2).1 2
    ⟨Walk.cons h₀₁ (Walk.single h₁₂), fun c hc => ?_⟩ (by decide)
  cases hc with
  | cons he hrest =>
    obtain ⟨x, hx, hsid, rfl, rfl⟩ := he.mem
    simp only [detour, List.mem_cons, List.not_mem_nil, or_false] at hx
    rcases hx with rfl | rfl | rfl
    · -- there is an edge left to node 2
      cases hrest with
      | cons he' _ =>
        obtain ⟨y, hy, -, -, rfl⟩ := he'.mem
        have := hpos y hy
        simp only
        omega
    · cases hsid
    · simp only
      omega

/-- An edge that costs `INFINITY` is not taken for one. -/
theorem infinite_cost_unreachable : Reaches (Edge [⟨0, 1, INFINITY⟩]) 0 1 ∧
    routing_lookup (routing_calc exactDoubles (fun _ => 0)
      (insertAll routing_init [⟨0, 1, INFINITY⟩])) 0 1 = -1 := by
  have he : Edge [⟨0, 1, INFINITY⟩] 0 1 INFINITY := by decide
  exact ⟨⟨INFINITY, Walk.single he⟩, by decide +kernel⟩

end Lookup

end Emulab.Routecalc
