import Emulab.Dre.Dijkstra

/-! # The first hops are on shortest paths

  The heap holds the nodes that have not been visited, with their estimates,
  and what the algorithm does with them is label setting. The predecessors
  lead back to the source, so that the recursion over them ends.
-/

namespace Emulab.Dre

open ShortestPath InternalFirstHop Function

/-! ## Section 1: The heap of the algorithm -/

/-- The heap holds the nodes in `P` that have not been visited, under their estimates. -/
structure Queued (P : Nat → Prop) (state : DijkState) (held : Ref → Option (Int × Nat)) : Prop where
  sound : state.heap.Sound held
  updater : ∀ v, P v → ∃ d, state.updaters v = some d
  held : ∀ d k v, held d = some (k, v) ↔
    P v ∧ state.visited v = false ∧ state.updaters v = some d ∧ state.estimate v = k
  bounds : ∀ v, 0 ≤ state.estimate v ∧ state.estimate v ≤ 32000

variable {P : Nat → Prop} {state state' : DijkState} {held : Ref → Option (Int × Nat)} {g : Graph} {s u v : Nat}

/-- A node has one element, and an element one node. -/
theorem Queued.eq_of_updater (hq : Queued P state held) {d : Ref} (hu : P u)
    (hnu : state.visited u = false) (hdu : state.updaters u = some d) (hv : P v)
    (hnv : state.visited v = false) (hdv : state.updaters v = some d) : u = v := by
  have hheldu := (hq.held d _ u).mpr ⟨hu, hnu, hdu, rfl⟩
  have hheldv := (hq.held d _ v).mpr ⟨hv, hnv, hdv, rfl⟩
  exact (Prod.mk.inj (Option.some.inj (hheldu.symm.trans hheldv))).2

theorem insertNode_spec (hq : Queued P state held) (hnew : ¬ P u) (hunvisited : state.visited u = false) :
    ∃ state' held', insertNode state u = .ok state' ∧ Queued (fun v => P v ∨ v = u) state' held' ∧
      state'.visited = state.visited ∧ state'.estimate = state.estimate ∧ state'.pred = state.pred := by
  obtain ⟨d, h, hrun, hnone, hsound⟩ := hq.sound.insert_obj (state.estimate u) u
  refine ⟨{ state with heap := h, updaters := update state.updaters u (some d) }, _,
    by simp only [insertNode, hrun], ⟨hsound, fun v hv => ?_, fun d' k v => ?_, hq.bounds⟩, rfl, rfl, rfl⟩
  · by_cases hvu : v = u
    · exact ⟨d, by simp [hvu]⟩
    · obtain ⟨d', hd'⟩ := hq.updater v (hv.resolve_right hvu)
      exact ⟨d', by simp [hvu, hd']⟩
  · by_cases hd' : d' = d
    · subst hd'
      rw [update_self]
      constructor
      · intro heq
        obtain ⟨rfl, rfl⟩ := Prod.mk.inj (Option.some.inj heq)
        exact ⟨Or.inr rfl, hunvisited, update_self .., rfl⟩
      · rintro ⟨hv, hnv, hupd, rfl⟩
        by_cases hvu : v = u
        · rw [hvu]
        · -- the new element is not that of another node
          simp only [update_of_ne hvu] at hupd
          have := (hq.held d' _ v).mpr ⟨hv.resolve_right hvu, hnv, hupd, rfl⟩
          rw [hnone] at this
          cases this
    · rw [update_of_ne hd', hq.held]
      by_cases hvu : v = u
      · subst hvu
        refine iff_of_false (fun h => hnew h.1) fun h => ?_
        have := h.2.2.1
        simp only [update_self, Option.some.injEq] at this
        exact hd' this.symm
      · simp [hvu]

theorem fill_heap_spec {xs : List Nat} (hq : Queued P state held) (hnodup : xs.Nodup)
    (hnew : ∀ x ∈ xs, ¬ P x) (hunvisited : ∀ x, state.visited x = false) :
    ∃ state' held', fill_heap state xs = .ok state' ∧ Queued (fun v => P v ∨ v ∈ xs) state' held' ∧
      state'.visited = state.visited ∧ state'.estimate = state.estimate ∧ state'.pred = state.pred := by
  induction xs generalizing P state held with
  | nil => exact ⟨state, held, rfl, by simpa using hq, rfl, rfl, rfl⟩
  | cons x xs ih =>
    obtain ⟨hx, hnodup⟩ := List.nodup_cons.mp hnodup
    obtain ⟨state₁, held₁, hrun₁, hq₁, hv₁, he₁, hp₁⟩ :=
      insertNode_spec hq (hnew x List.mem_cons_self) (hunvisited x)
    obtain ⟨state₂, held₂, hrun₂, hq₂, hv₂, he₂, hp₂⟩ := ih hq₁ hnodup
      (fun y hy => not_or.mpr ⟨hnew y (List.mem_cons_of_mem _ hy), fun heq => hx (heq ▸ hy)⟩)
      (by rwa [hv₁])
    refine ⟨state₂, held₂, by simp only [fill_heap, hrun₁, hrun₂], ?_, hv₂.trans hv₁, he₂.trans he₁, hp₂.trans hp₁⟩
    have hset : (fun v => P v ∨ v ∈ x :: xs) = fun v => (P v ∨ v = x) ∨ v ∈ xs := by
      funext v
      simp [or_assoc]
    rwa [hset]

/-! ## Section 2: Relaxing the edges of a node -/

/-- Sums of an estimate and a weight do not wrap around. -/
def Fits (g : Graph) : Prop := ∀ e ∈ g.edges, 0 < e.contents ∧ e.contents + 32000 ≤ max_int

theorem add_eq {a b : Int} (h₀ : 0 ≤ a) (ha : a ≤ 32000) (hb₀ : 0 < b) (hb : b + 32000 ≤ max_int) :
    add a b = a + b := by
  unfold max_int at hb
  unfold add
  rw [Int.bmod_eq_of_le] <;> omega

/-- What looking at some edges of `u` does. -/
structure Relaxation (g : Graph) (u : Nat) (es : List Edge) (state state' : DijkState) : Prop where
  visited : state'.visited = state.visited
  keep : ∀ x, state.visited x = true → state'.estimate x = state.estimate x ∧ state'.pred x = state.pred x
  le : ∀ x, state'.estimate x ≤ state.estimate x
  change : ∀ x, state'.estimate x = state.estimate x ∧ state'.pred x = state.pred x ∨
    state'.pred x = u ∧ ∃ w : Nat, g.Link u x w ∧ state'.estimate x = state.estimate u + w
  relaxed : ∀ e ∈ es, state.visited (otherEnd u e) = false →
    state'.estimate (otherEnd u e) ≤ state.estimate u + e.contents

theorem Relaxation.refl (g : Graph) (u : Nat) (state : DijkState) : Relaxation g u [] state state :=
  ⟨rfl, fun _ _ => ⟨rfl, rfl⟩, fun _ => le_rfl, fun _ => Or.inl ⟨rfl, rfl⟩, by simp⟩

theorem Relaxation.trans {state'' : DijkState} {es es' : List Edge} (hu : state.visited u = true)
    (h : Relaxation g u es state state') (h' : Relaxation g u es' state' state'') :
    Relaxation g u (es ++ es') state state'' := by
  have hsource : state'.estimate u = state.estimate u := (h.keep u hu).1
  refine ⟨h'.visited.trans h.visited, fun x hx => ?_, fun x => (h'.le x).trans (h.le x), fun x => ?_,
    fun e he hx => ?_⟩
  · obtain ⟨he, hp⟩ := h.keep x hx
    obtain ⟨he', hp'⟩ := h'.keep x (by rwa [h.visited])
    exact ⟨he'.trans he, hp'.trans hp⟩
  · rcases h'.change x with ⟨he', hp'⟩ | ⟨hp', w, hlink, he'⟩
    · rw [he', hp']
      exact h.change x
    · exact Or.inr ⟨hp', w, hlink, by rw [he', hsource]⟩
  · rcases List.mem_append.mp he with he | he
    · exact (h'.le _).trans (h.relaxed e he hx)
    · rw [← hsource]
      exact h'.relaxed e he (by rwa [h.visited])

theorem mem_otherEnd {e : Edge} (he : e ∈ g.node_edges u) : e ∈ g.edges ∧ otherEnd u e ∈ g.nodes ∧
      (e.src = u ∧ e.dst = otherEnd u e ∨ e.src = otherEnd u e ∧ e.dst = u) := by
  obtain ⟨hmem, hends⟩ := (g.mem_node_edges u e).mp he
  obtain ⟨hsrc, hdst⟩ := g.ends_mem e hmem
  unfold otherEnd
  by_cases hu : e.src = u
  · simp [hu, hmem, hdst]
  · simp [hu, hmem, hsrc, hends.resolve_left hu]

theorem relax_spec (hfits : Fits g) (hq : Queued (· ∈ g.nodes) state held)
    (hu : state.visited u = true) {e : Edge} (he : e ∈ g.node_edges u)
    (hv : state.visited (otherEnd u e) = false) :
    ∃ state' held', relax state u (otherEnd u e) e = .ok state' ∧
      Queued (· ∈ g.nodes) state' held' ∧ Relaxation g u [e] state state' := by
  obtain ⟨hmem, hnode, hends⟩ := mem_otherEnd he
  obtain ⟨hpos, hmax⟩ := hfits e hmem
  obtain ⟨h₀, h₁⟩ := hq.bounds u
  have hadd := add_eq h₀ h₁ hpos hmax
  generalize hx : otherEnd u e = x at *
  have hxu : x ≠ u := by
    rintro rfl
    rw [hu] at hv
    cases hv
  by_cases hlt : state.estimate u + e.contents < state.estimate x
  · obtain ⟨d, hd⟩ := hq.updater x hnode
    have hheld := (hq.held d _ x).mpr ⟨hnode, hv, hd, rfl⟩
    obtain ⟨h, hrun, hsound⟩ := hq.sound.update_weight hheld hlt.le
    refine ⟨{ state with
        estimate := update state.estimate x (state.estimate u + e.contents)
        heap := h
        pred := update state.pred x u }, _, ?_,
      ⟨hsound, hq.updater, fun d' k y => ?_, fun y => ?_⟩, ⟨rfl, fun y hy => ?_, fun y => ?_, fun y => ?_,
        fun e' he' _ => ?_⟩⟩
    · simp only [relax, hadd, if_pos hlt, DijkState.lower, hd, hrun]
    · by_cases hd' : d' = d
      · subst hd'
        rw [update_self]
        constructor
        · intro heq
          obtain ⟨rfl, rfl⟩ := Prod.mk.inj (Option.some.inj heq)
          exact ⟨hnode, hv, hd, update_self ..⟩
        · rintro ⟨hy, hny, hdy, rfl⟩
          obtain rfl := hq.eq_of_updater hy hny hdy hnode hv hd
          simp
      · rw [update_of_ne hd', hq.held]
        by_cases hyx : y = x
        · subst hyx
          have hne : state.updaters y ≠ some d' := by
            rw [hd]
            exact fun heq => hd' (Option.some.inj heq).symm
          simp [hne]
        · simp [hyx]
    · by_cases hyx : y = x
      · subst hyx
        have := (hq.bounds y).2
        simp only [update_self]
        omega
      · simp only [update_of_ne hyx]
        exact hq.bounds y
    · have hyx : y ≠ x := by
        rintro rfl
        rw [hv] at hy
        cases hy
      simp [hyx]
    · by_cases hyx : y = x
      · subst hyx
        simpa using hlt.le
      · simp [hyx]
    · by_cases hyx : y = x
      · subst hyx
        refine Or.inr ⟨update_self .., e.contents.toNat, ⟨e, hmem, by omega, ?_⟩, ?_⟩
        · exact hends
        · simp only [update_self]
          omega
      · simp [hyx]
    · rw [List.mem_singleton.mp he', hx]
      exact (update_self ..).le
  · refine ⟨state, held, by simp only [relax, hadd, if_neg hlt], hq, ⟨rfl, fun _ _ => ⟨rfl, rfl⟩,
      fun _ => le_rfl, fun _ => Or.inl ⟨rfl, rfl⟩, fun e' he' _ => ?_⟩⟩
    rw [List.mem_singleton.mp he', hx]
    exact not_lt.mp hlt

theorem process_edges_spec (hfits : Fits g) (es : List Edge) (hq : Queued (· ∈ g.nodes) state held)
    (hu : state.visited u = true) (hes : ∀ e ∈ es, e ∈ g.node_edges u) :
    ∃ state' held', process_edges state u es = .ok state' ∧
      Queued (· ∈ g.nodes) state' held' ∧ Relaxation g u es state state' := by
  induction es generalizing state held with
  | nil => exact ⟨state, held, rfl, hq, .refl g u state⟩
  | cons e es ih =>
    have hes' : ∀ e ∈ es, e ∈ g.node_edges u := fun e he => hes e (List.mem_cons_of_mem _ he)
    cases hv : state.visited (otherEnd u e) with
    | true =>
      obtain ⟨state', held', hrun, hq', hr⟩ := ih hq hu hes'
      refine ⟨state', held', by simp [process_edges, hv, hrun], hq', ⟨hr.visited, hr.keep, hr.le, hr.change,
        fun e' he' hv' => ?_⟩⟩
      rcases List.mem_cons.mp he' with rfl | he'
      · rw [hv] at hv'
        cases hv'
      · exact hr.relaxed e' he' hv'
    | false =>
      obtain ⟨state₁, held₁, hrun₁, hq₁, hr₁⟩ := relax_spec hfits hq hu (hes e List.mem_cons_self) hv
      obtain ⟨state₂, held₂, hrun₂, hq₂, hr₂⟩ := ih hq₁ (by rwa [hr₁.visited]) hes'
      exact ⟨state₂, held₂, by simp [process_edges, hv, hrun₁, hrun₂], hq₂, hr₁.trans hu hr₂⟩

/-! ## Section 3: Label setting -/

def label (state : DijkState) (v : Nat) : Nat := (state.estimate v).toNat

/-- The invariant of `process_nodes`. -/
structure DijkInv (g : Graph) (s : Nat) (state : DijkState) (held : Ref → Option (Int × Nat)) : Prop where
  queued : Queued (· ∈ g.nodes) state held
  labels : Labels g.Link s 32000 (fun v => state.visited v = true) (label state)
  preds : Preds g.Link s 32000 (fun v => state.visited v = true) (label state) state.pred
  outside : ∀ v, v ∉ g.nodes → state.estimate v = 32000

theorem Link.mem {w : Nat} (h : g.Link u v w) : u ∈ g.nodes ∧ v ∈ g.nodes := by
  obtain ⟨e, he, -, ⟨rfl, rfl⟩ | ⟨rfl, rfl⟩⟩ := h
  · exact g.ends_mem e he
  · exact (g.ends_mem e he).symm

theorem init_spec (hs : s ∈ g.nodes) : ∃ state held, init g s = .ok state ∧ DijkInv g s state held ∧
    state.visited = fun _ => false := by
  have hblank : Queued (fun _ => False) (blank s) fun _ => none := by
    refine ⟨Heap.sound_make_heap 0, fun _ h => h.elim, fun d k v => ?_, fun v => ?_⟩
    · exact iff_of_false (fun h => by cases h) fun h => h.1
    · by_cases hv : v = s <;> simp [blank, hv]
  obtain ⟨state, held, hrun, hq, hvisited, hestimate, hpred⟩ :=
    fill_heap_spec hblank g.nodes_nodup (fun _ _ h => h) fun _ => rfl
  have hvisited : state.visited = fun _ => false := hvisited
  have hfar : ∀ v, v ≠ s → label state v = 32000 := by
    intro v hv
    simp [label, hestimate, blank, hv]
  refine ⟨state, held, hrun, ⟨by simpa using hq, ?_, fun v hv hlt => ?_, fun v hv => ?_⟩, hvisited⟩
  · have hstart : Labels g.Link s 32000 (fun _ => False) (label state) :=
      Labels.start (by simp [label, hestimate, blank]) fun v hv => (hfar v hv).ge
    simpa [hvisited] using hstart
  · rw [hfar v hv] at hlt
    exact absurd hlt (lt_irrefl _)
  · have hne : v ≠ s := fun h => hv (h ▸ hs)
    simp [hestimate, blank, hne]

theorem DijkInv.len_pos_iff (h : DijkInv g s state held) :
    0 < state.heap.len ↔ ∃ v ∈ g.nodes, state.visited v = false := by
  constructor
  · intro hlen
    obtain ⟨hv, hnv, -⟩ := (h.queued.held _ _ _).mp (h.queued.sound.held_arr hlen)
    exact ⟨_, hv, hnv⟩
  · rintro ⟨v, hv, hnv⟩
    obtain ⟨d, hd⟩ := h.queued.updater v hv
    have hheld := (h.queued.held d _ v).mpr ⟨hv, hnv, hd, rfl⟩
    by_contra hlen
    rw [h.queued.sound.empty (by omega)] at hheld
    cases hheld

/-- Every node is near enough. -/
def Near (g : Graph) (s : Nat) : Prop := ∀ v ∈ g.nodes, ∃ c, Walk g.Link s v c ∧ c < 32000

/-- The heap is in step with the nodes when the first one has been taken out. -/
theorem Queued.extract {h : Heap Nat} (hq : Queued P state held) {d : Ref} {k : Int}
    (hd : held d = some (k, v)) (hsound : h.Sound (update held d none)) :
    Queued P { state with heap := h, visited := update state.visited v true } (update held d none) := by
  obtain ⟨hv, hnv, hupd, rfl⟩ := (hq.held d k v).mp hd
  refine ⟨hsound, hq.updater, fun d' k' x => ?_, hq.bounds⟩
  by_cases hd' : d' = d
  · subst hd'
    rw [update_self]
    refine iff_of_false (fun h => by cases h) fun ⟨hx, hnx, hupdx, _⟩ => ?_
    have hxv : x ≠ v := by
      rintro rfl
      simp at hnx
    simp only [update_of_ne hxv] at hnx
    exact hxv (hq.eq_of_updater hx hnx hupdx hv hnv hupd)
  · rw [update_of_ne hd', hq.held]
    by_cases hxv : x = v
    · subst hxv
      have hne : state.updaters x ≠ some d' := by
        rw [hupd]
        exact fun heq => hd' (Option.some.inj heq).symm
      simp [hne]
    · simp [hxv]

/-- **Step lemma.** One round visits the nearest node that has not been visited. -/
theorem process_node_spec (hfits : Fits g) (hnear : Near g s) (hinv : DijkInv g s state held)
    (hleft : ∃ v ∈ g.nodes, state.visited v = false) :
    ∃ k v h state' held', state.heap.min = .ok (k, v) ∧ state.heap.extract_min = .ok h ∧
      v ∈ g.nodes ∧ state.visited v = false ∧
      process_edges { state with heap := h, visited := update state.visited v true } v
        (g.node_edges v) = .ok state' ∧
      DijkInv g s state' held' ∧ state'.visited = update state.visited v true := by
  have hlen := hinv.len_pos_iff.mpr hleft
  have hq := hinv.queued
  obtain ⟨hmin, hleast⟩ := hq.sound.min hlen
  have hroot := hq.sound.held_arr hlen
  obtain ⟨h, hextract, hsound⟩ := hq.sound.extract_min hlen
  generalize (state.heap.data (state.heap.arr 0)).value = v at hmin hroot
  generalize state.heap.keyAt 0 = k at hmin hleast hroot
  obtain ⟨hv, hnv, -, rfl⟩ := (hq.held _ k v).mp hroot
  have hq₁ := hq.extract hroot hsound
  obtain ⟨state', held', hrun, hq', hr⟩ :=
    process_edges_spec hfits (g.node_edges v) hq₁ (by simp) fun e he => he
  refine ⟨_, v, h, state', held', hmin, hextract, hv, hnv, hrun, ?_, hr.visited⟩
  -- this is a step of label setting
  have hvisited : ∀ x, state'.visited x = true ↔ state.visited x = true ∨ x = v := by
    intro x
    rw [hr.visited]
    by_cases hx : x = v <;> simp [hx]
  have hnearest : ∀ y, ¬ state.visited y = true → label state v ≤ label state y := by
    intro y hy
    apply Int.toNat_le_toNat
    by_cases hmem : y ∈ g.nodes
    · obtain ⟨d, hd⟩ := hq.updater y hmem
      exact hleast d _ y ((hq.held d _ y).mpr ⟨hmem, by simpa using hy, hd, rfl⟩)
    · rw [hinv.outside y hmem]
      exact (hq.bounds v).2
  have hlt : label state v < 32000 := by
    obtain ⟨c, hwalk, hc⟩ := hnear v hv
    rcases hinv.labels.cover hwalk hc with ⟨hdone, -⟩ | ⟨y, hy, hle⟩
    · simp [hnv] at hdone
    · exact (hnearest y hy).trans_lt (hle.trans_lt hc)
  have hchange : ∀ x, label state' x = label state x ∧ state'.pred x = state.pred x ∨
      state'.pred x = v ∧ ∃ w, g.Link v x w ∧ label state' x = label state v + w := by
    intro x
    rcases hr.change x with ⟨he, hp⟩ | ⟨hp, w, hlink, he⟩
    · exact Or.inl ⟨congrArg Int.toNat he, hp⟩
    · have h₀ := (hq.bounds v).1
      refine Or.inr ⟨hp, w, hlink, ?_⟩
      simp only [label] at he ⊢
      omega
  have hrelaxed : Relaxed g.Link 32000 (fun x => state.visited x = true) v (label state) (label state') := by
    refine ⟨fun x hx => ?_, fun x => Int.toNat_le_toNat (hr.le x), fun x _ => ?_,
      fun x w hlink hnx hxv _ => ?_⟩
    · exact congrArg Int.toNat (hr.keep x (by rw [← hr.visited]; exact (hvisited x).mpr hx)).1
    · exact (hchange x).imp And.left And.right
    · obtain ⟨e, he, hw, hends⟩ := hlink
      have hend : otherEnd v e = x ∧ e ∈ g.node_edges v := by
        rw [g.mem_node_edges]
        unfold otherEnd
        rcases hends with ⟨hsrc, hdst⟩ | ⟨hsrc, hdst⟩
        · simp [he, hsrc, hdst]
        · simp [he, hsrc, hdst, hxv]
      have hnew := hr.relaxed e hend.2 (by
        rw [hend.1]
        simpa [hxv] using hnx)
      rw [hend.1] at hnew
      have h₀ := (hq.bounds v).1
      simp only [label]
      simp only at hnew
      omega
  refine ⟨hq', ?_, ?_, fun x hx => ?_⟩
  · have := hinv.labels.settle (by simp [hnv]) hlt hnearest hrelaxed
    simpa [hvisited] using this
  · have := hinv.preds.settle hrelaxed hchange
    simpa [hvisited] using this
  · rcases hr.change x with ⟨he, -⟩ | ⟨-, w, hlink, -⟩
    · exact he.trans (hinv.outside x hx)
    · exact absurd (Link.mem hlink).2 hx

def unvisited (g : Graph) (state : DijkState) : Nat :=
  (g.nodes.filter fun v => state.visited v = false).length

theorem unvisited_lt (hv : v ∈ g.nodes) (hnv : state.visited v = false)
    (hvisited : state'.visited = update state.visited v true) : unvisited g state' < unvisited g state := by
  have hsub : (g.nodes.filter fun x => state'.visited x = false).length =
      ((g.nodes.filter fun x => state.visited x = false).filter (· ≠ v)).length := by
    rw [List.filter_filter, hvisited]
    congr 2
    funext x
    by_cases hx : x = v <;> simp [hx]
  unfold unvisited
  rw [hsub]
  exact List.length_filter_lt_length_iff_exists.mpr ⟨v, by simp [hv, hnv], by simp⟩

/-- **Run lemma.** All nodes are visited in the end. -/
theorem process_nodes_spec (hfits : Fits g) (hnear : Near g s) {fuel : Nat}
    (hinv : DijkInv g s state held) (hfuel : unvisited g state < fuel) :
    ∃ state' held', process_nodes g fuel state = some (.ok state') ∧ DijkInv g s state' held' ∧
      ∀ v ∈ g.nodes, state'.visited v = true := by
  induction fuel generalizing state held with
  | zero => exact absurd hfuel (Nat.not_lt_zero _)
  | succ fuel ih =>
    by_cases hleft : ∃ v ∈ g.nodes, state.visited v = false
    · obtain ⟨k, v, h, state₁, held₁, hmin, hextract, hv, hnv, hedges, hinv₁, hvisited⟩ :=
        process_node_spec hfits hnear hinv hleft
      have hless := unvisited_lt hv hnv hvisited
      obtain ⟨state₂, held₂, hrun, hrest⟩ := ih hinv₁ (by omega)
      exact ⟨state₂, held₂, by simp only [process_nodes, hmin, hextract, hedges, hrun], hrest⟩
    · have hempty : state.heap.len = 0 := by
        have := mt hinv.len_pos_iff.mp hleft
        omega
      have hmin : state.heap.min = .error .EmptyHeap := if_pos hempty
      refine ⟨state, held, by simp only [process_nodes, hmin], hinv, fun v hv => ?_⟩
      by_contra hnot
      exact hleft ⟨v, hv, by simpa using hnot⟩

/-- The predecessors are a tree of shortest paths from `s`. -/
structure PredTree (g : Graph) (s : Nat) (dist pred : Nat → Nat) : Prop where
  least : ∀ v ∈ g.nodes, IsLeast {c | Walk g.Link s v c} (dist v)
  source : dist s = 0
  near : ∀ v ∈ g.nodes, dist v < 32000
  step : ∀ v ∈ g.nodes, v ≠ s → pred v ∈ g.nodes ∧ ∃ w, 0 < w ∧ g.Link (pred v) v w ∧ dist v = dist (pred v) + w

theorem Fits.pos (hfits : Fits g) {w : Nat} (h : g.Link u v w) : 0 < w := by
  obtain ⟨e, he, hw, -⟩ := h
  have := (hfits e he).1
  omega

theorem run_dijkstra_spec (hfits : Fits g) (hs : s ∈ g.nodes) (hnear : Near g s) (fuel : Nat)
    (hfuel : g.size < fuel) : ∃ estimate pred, run_dijkstra g s fuel = some (.ok (estimate, pred)) ∧
      PredTree g s (fun v => (estimate v).toNat) pred := by
  obtain ⟨state, held, hinit, hinv, -⟩ := init_spec hs
  have hcount : unvisited g state < fuel := (List.length_filter_le _ _).trans_lt hfuel
  obtain ⟨state', held', hrun, hinv', hall⟩ := process_nodes_spec hfits hnear hinv hcount
  have hlt : ∀ v ∈ g.nodes, label state' v < 32000 := by
    intro v hv
    obtain ⟨c, hwalk, hc⟩ := hnear v hv
    exact ((hinv'.labels.least v (hall v hv)).2 hwalk).trans_lt hc
  refine ⟨state'.estimate, state'.pred, by simp [run_dijkstra, hinit, hrun, Except.map],
    fun v hv => hinv'.labels.least v (hall v hv), hinv'.labels.source, hlt, fun v hv hvs => ?_⟩
  obtain ⟨-, w, hlink, hw⟩ := hinv'.preds v hvs (hlt v hv)
  exact ⟨(Link.mem hlink).1, w, hfits.pos hlink, hlink, hw⟩

/-! ## Section 4: The recursion over the predecessors -/

/-- `f` is next to the source, on a shortest path to `v`. -/
def OnPath (g : Graph) (s : Nat) (dist : Nat → Nat) (f v : Nat) : Prop :=
  ∃ w c, g.Link s f w ∧ Walk g.Link f v c ∧ w + c = dist v

structure Remembered (g : Graph) (s : Nat) (dist : Nat → Nat) (hops : Nat → InternalFirstHop) : Prop where
  root : hops s = INoHop
  others : ∀ v, v ≠ s → hops v ≠ INoHop
  hop : ∀ v f, hops v = INodeHop f → OnPath g s dist f v

variable {dist pred : Nat → Nat} {hops : Nat → InternalFirstHop}

theorem Remembered.update {f : Nat} (hr : Remembered g s dist hops) (hv : v ≠ s)
    (hf : OnPath g s dist f v) : Remembered g s dist (update hops v (INodeHop f)) := by
  refine ⟨?_, fun x hx => ?_, fun x f' hx => ?_⟩
  · rw [update_of_ne hv.symm]
    exact hr.root
  · by_cases hxv : x = v
    · simp [hxv]
    · rw [update_of_ne hxv]
      exact hr.others x hx
  · by_cases hxv : x = v
    · subst hxv
      rw [update_self] at hx
      exact InternalFirstHop.INodeHop.inj hx ▸ hf
    · rw [update_of_ne hxv] at hx
      exact hr.hop x f' hx

/-- The recursion ends because the distances fall, and what it finds is remembered. -/
theorem hop_helper_spec (ht : PredTree g s dist pred) {fuel : Nat} (hr : Remembered g s dist hops)
    (hv : v ∈ g.nodes) (hvs : v ≠ s) (hfuel : dist v < fuel) : ∃ f hops',
    hop_helper pred s fuel hops v = some (INodeHop f, hops') ∧ hops' v = INodeHop f ∧
      OnPath g s dist f v ∧ Remembered g s dist hops' ∧
      ∀ x f, hops x = INodeHop f → ∃ f, hops' x = INodeHop f := by
  induction fuel generalizing v hops with
  | zero => exact absurd hfuel (Nat.not_lt_zero _)
  | succ fuel ih =>
    have hkept : ∀ hops' : Nat → InternalFirstHop, ∀ f, (∀ x f, hops x = INodeHop f →
        ∃ f, hops' x = INodeHop f) → ∀ x f', hops x = INodeHop f' →
        ∃ f', update hops' v (INodeHop f) x = INodeHop f' := by
      intro hops' f hkeep x f' hx
      by_cases hxv : x = v
      · exact ⟨f, by simp [hxv]⟩
      · rw [update_of_ne hxv]
        exact hkeep x f' hx
    rw [hop_helper]
    cases hhop : hops v with
    | INoHop => exact absurd hhop (hr.others v hvs)
    | INodeHop f => exact ⟨f, hops, rfl, hhop, hr.hop v f hhop, hr, fun x f hx => ⟨f, hx⟩⟩
    | INoHopYet =>
      obtain ⟨hp, w, hw, hlink, hdist⟩ := ht.step v hv hvs
      by_cases hps : pred v = s
      · -- the node is next to the root
        have hon : OnPath g s dist v v := by
          rw [hps, ht.source] at hdist
          exact ⟨w, 0, hps ▸ hlink, Walk.nil v, by omega⟩
        refine ⟨v, update hops v (INodeHop v), by simp [hps], update_self .., hon,
          hr.update hvs hon, hkept hops v fun x f hx => ⟨f, hx⟩⟩
      · obtain ⟨f, hops', hrun, -, hon, hr', hkeep⟩ := ih hr hp hps (by omega)
        have hon' : OnPath g s dist f v := by
          obtain ⟨w', c, hedge, hwalk, hsum⟩ := hon
          exact ⟨w', c + w, hedge, hwalk.append (Walk.single hlink), by omega⟩
        refine ⟨f, update hops' v (INodeHop f), by simp [hps, hrun], update_self ..,
          hon', hr'.update hvs hon', hkept hops' f hkeep⟩

theorem all_hops_spec (ht : PredTree g s dist pred) {fuel : Nat} (nodes : List Nat)
    (hr : Remembered g s dist hops) (hnodes : ∀ v ∈ nodes, v ∈ g.nodes)
    (hfuel : ∀ v ∈ g.nodes, dist v < fuel) : ∃ hops', all_hops pred s fuel hops nodes = some hops' ∧
      Remembered g s dist hops' ∧ (∀ v ∈ nodes, v ≠ s → ∃ f, hops' v = INodeHop f) ∧
      ∀ x f, hops x = INodeHop f → ∃ f, hops' x = INodeHop f := by
  induction nodes generalizing hops with
  | nil => exact ⟨hops, rfl, hr, by simp, fun x f hx => ⟨f, hx⟩⟩
  | cons x xs ih =>
    have hxs : ∀ v ∈ xs, v ∈ g.nodes := fun v hv => hnodes v (List.mem_cons_of_mem _ hv)
    by_cases hx : x = s
    · -- the root has none, and nothing is written
      subst hx
      obtain ⟨hops', hrun, hr', hall, hkeep⟩ := ih hr hxs
      have hroot : hop_helper pred x fuel hops x = some (INoHop, hops) := by
        obtain ⟨fuel, rfl⟩ : ∃ n, fuel = n + 1 :=
          ⟨fuel - 1, by have := hfuel x (hnodes x List.mem_cons_self); omega⟩
        simp [hop_helper, hr.root]
      refine ⟨hops', by simp [all_hops, hroot, hrun], hr', fun v hv hvs => ?_, hkeep⟩
      exact hall v ((List.mem_cons.mp hv).resolve_left hvs) hvs
    · have hxg := hnodes x List.mem_cons_self
      obtain ⟨f, hops₁, hrun₁, hx₁, -, hr₁, hkeep₁⟩ := hop_helper_spec ht hr hxg hx (hfuel x hxg)
      obtain ⟨hops₂, hrun₂, hr₂, hall₂, hkeep₂⟩ := ih hr₁ hxs
      refine ⟨hops₂, by simp [all_hops, hrun₁, hrun₂], hr₂, fun v hv hvs => ?_, fun y f' hy => ?_⟩
      · rcases List.mem_cons.mp hv with rfl | hv
        · exact hkeep₂ v f hx₁
        · exact hall₂ v hv hvs
      · obtain ⟨f'', hy'⟩ := hkeep₁ y f' hy
        exact hkeep₂ y f'' hy'

theorem mapM_eq_some {α β : Type} {f : α → Option β} {h : α → β} {l : List α}
    (hf : ∀ x ∈ l, f x = some (h x)) : l.mapM f = some (l.map h) := by
  induction l with
  | nil => rfl
  | cons x l ih =>
    rw [List.mapM_cons, hf x List.mem_cons_self, ih fun y hy => hf y (List.mem_cons_of_mem _ hy)]
    rfl

theorem get_first_hops_spec (ht : PredTree g s dist pred) (hnumbered : g.Numbered) (fuel : Nat)
    (hfuel : 32000 ≤ fuel) : ∃ row, get_first_hops g pred s fuel = some (some row) ∧
      ∀ d ∈ g.nodes, d ≠ s → ∃ f : Nat, row[d]? = some (f : Int) ∧ OnPath g s dist f d := by
  have hr : Remembered g s dist (update (fun _ => INoHopYet) s INoHop) := by
    refine ⟨update_self .., fun v hv => by simp [hv], fun v f hvf => ?_⟩
    by_cases hv : v = s <;> simp [hv] at hvf
  obtain ⟨hops, hrun, hr', hall, -⟩ := all_hops_spec ht g.nodes hr (fun _ hv => hv)
    fun v hv => (ht.near v hv).trans_le hfuel
  have hcopy : ∀ i ∈ List.range g.size, copyHop hops i = some ((copyHop hops i).getD (-1)) := by
    intro i hi
    by_cases his : i = s
    · simp [copyHop, his, hr'.root]
    · obtain ⟨f, hf⟩ := hall i ((hnumbered i).mpr (List.mem_range.mp hi)) his
      simp [copyHop, hf]
  refine ⟨(List.range g.size).map fun i => (copyHop hops i).getD (-1),
    by simp only [get_first_hops, hrun, mapM_eq_some hcopy, Option.map_some], fun d hd hds => ?_⟩
  obtain ⟨f, hf⟩ := hall d hd hds
  refine ⟨f, ?_, hr'.hop d f hf⟩
  simp [(hnumbered d).mp hd, copyHop, hf]

theorem fill_array_spec (hfits : Fits g) (hnumbered : g.Numbered) (hs : s ∈ g.nodes)
    (hnear : Near g s) {fuel : Nat} (hfuel : g.size + 32000 < fuel) : ∃ row dist pred,
      fill_array g fuel s = some (.ok row) ∧ PredTree g s dist pred ∧
      ∀ d ∈ g.nodes, d ≠ s → ∃ f : Nat, row[d]? = some (f : Int) ∧ OnPath g s dist f d := by
  obtain ⟨estimate, pred, hrun, ht⟩ := run_dijkstra_spec hfits hs hnear fuel (by omega)
  obtain ⟨row, hrow, hall⟩ := get_first_hops_spec ht hnumbered fuel (by omega)
  exact ⟨row, _, pred, by simp only [fill_array, hrun, hrow], ht, hall⟩

theorem fillRows_spec {fuel : Nat} {nodes : List Nat} {Row : Nat → List Int → Prop}
    (hnodup : nodes.Nodup) (hrow : ∀ s ∈ nodes, ∃ row, fill_array g fuel s = some (.ok row) ∧ Row s row)
    (rows : Nat → List Int) : ∃ rows', fillRows g fuel rows nodes = some (.ok rows') ∧
      (∀ s ∈ nodes, Row s (rows' s)) ∧ ∀ s, s ∉ nodes → rows' s = rows s := by
  induction nodes generalizing rows with
  | nil => exact ⟨rows, rfl, by simp, fun _ _ => rfl⟩
  | cons x xs ih =>
    obtain ⟨hx, hnodup⟩ := List.nodup_cons.mp hnodup
    obtain ⟨row, hrun, hgood⟩ := hrow x List.mem_cons_self
    obtain ⟨rows', hrun', hall, hothers⟩ := ih hnodup
      (fun s hs => hrow s (List.mem_cons_of_mem _ hs)) (update rows x row)
    refine ⟨rows', by simp only [fillRows, hrun, hrun'], fun s hs => ?_, fun s hs => ?_⟩
    · rcases List.mem_cons.mp hs with rfl | hs
      · rw [hothers s hx, update_self]
        exact hgood
      · exact hall s hs
    · rw [List.mem_cons, not_or] at hs
      rw [hothers s hs.2, update_of_ne hs.1]

/-! ## Section 5: All first hops -/

/-- The entry for going from `u` to `d`. -/
def hopTo (hops : Nat → List Int) (d u : Nat) : Nat := ((hops u)[d]?.getD (-1)).toNat

/-- **Main result.** Every entry is next to its source on a shortest path, and following the entries
    is one. The fuel is enough from some number on. -/
theorem get_all_first_hops_shortest (g : Graph) (hnumbered : g.Numbered)
    (hfits : ∀ e ∈ g.edges, 0 < e.contents ∧ e.contents + 32000 ≤ max_int)
    (hnear : ∀ s ∈ g.nodes, ∀ d ∈ g.nodes, ∃ c, Walk g.Link s d c ∧ c < 32000) {fuel : Nat}
    (hfuel : g.size + 32000 < fuel) : ∃ hops, get_all_first_hops g fuel = some (.ok hops) ∧
      ∀ s ∈ g.nodes, ∀ d ∈ g.nodes, s ≠ d →
        (∃ f w c : Nat, (hops s)[d]? = some (f : Int) ∧ g.Link s f w ∧ Walk g.Link f d c ∧
          IsLeast {c | Walk g.Link s d c} (w + c)) ∧
        ∃ c, IsLeast {c | Walk g.Link s d c} c ∧ Hops g.Link (hopTo hops d) d s c := by
  have hentries : ∀ s ∈ g.nodes, ∃ row, fill_array g fuel s = some (.ok row) ∧
      ∀ d ∈ g.nodes, d ≠ s → ∃ f w c : Nat, row[d]? = some (f : Int) ∧ g.Link s f w ∧
        Walk g.Link f d c ∧ IsLeast {c | Walk g.Link s d c} (w + c) := by
    intro s hs
    obtain ⟨row, dist, pred, hrun, ht, hrow⟩ := fill_array_spec hfits hnumbered hs (hnear s hs) hfuel
    refine ⟨row, hrun, fun d hd hds => ?_⟩
    obtain ⟨f, hf, w, c, hlink, hwalk, hsum⟩ := hrow d hd hds
    exact ⟨f, w, c, hf, hlink, hwalk, hsum ▸ ht.least d hd⟩
  obtain ⟨hops, hrun, hall, -⟩ := fillRows_spec g.nodes_nodup hentries _
  refine ⟨hops, hrun, fun s hs d hd hsd => ⟨hall s hs d hd hsd.symm, ?_⟩⟩
  -- the distance of what is left falls from hop to hop
  have hmem : ∀ {u v c}, Walk g.Link u v c → v ∈ g.nodes → u ∈ g.nodes := by
    intro u v c hwalk hv
    cases hwalk with
    | nil => exact hv
    | cons hlink _ => exact (Link.mem hlink).1
  have hnext : ∀ u c, u ≠ d → c < 32000 → IsLeast {c | Walk g.Link u d c} c →
      ∃ w c', g.Link u (hopTo hops d u) w ∧ Walk g.Link (hopTo hops d u) d c' ∧ w + c' = c := by
    intro u c hud _ hleast
    obtain ⟨f, w, c', hf, hlink, hwalk, hleast'⟩ := hall u (hmem hleast.1 hd) d hd hud.symm
    have hto : hopTo hops d u = f := by simp [hopTo, hf]
    rw [hto]
    exact ⟨w, c', hlink, hwalk, hleast'.unique hleast⟩
  obtain ⟨c, hwalk, hc⟩ := hnear s hs d hd
  obtain ⟨f, w, c', -, -, -, hleast⟩ := hall s hs d hd hsd.symm
  have hlt : w + c' < 32000 := (hleast.2 hwalk).trans_lt hc
  exact ⟨w + c', hleast, hops_least (fun u v w => Fits.pos hfits) hnext _ s hlt hleast⟩

/-- Two nodes and an edge. -/
def edgePair : Graph :=
  ((Graph.empty_graph.add_node 0 (by decide)).add_node 1 (by decide)).add_edge 0 1 1 (by decide) (by decide)

theorem get_all_first_hops_pair : ∃ hops, get_all_first_hops edgePair 40000 = some (.ok hops) ∧
    (hops 0)[1]? = some 1 := by
  have hnear : ∀ s ∈ edgePair.nodes, ∀ d ∈ edgePair.nodes, ∃ c, Walk edgePair.Link s d c ∧ c < 32000 := by
    have hnodes : ∀ v ∈ edgePair.nodes, v = 1 ∨ v = 0 := by decide
    have hlink : edgePair.Link 0 1 1 ∧ edgePair.Link 1 0 1 := by decide
    intro s hs d hd
    rcases hnodes s hs with rfl | rfl <;> rcases hnodes d hd with rfl | rfl
    · exact ⟨0, Walk.nil 1, by decide⟩
    · exact ⟨1, Walk.single hlink.2, by decide⟩
    · exact ⟨1, Walk.single hlink.1, by decide⟩
    · exact ⟨0, Walk.nil 0, by decide⟩
  have hnumbered : edgePair.Numbered := by
    intro v
    have hmem : v ∈ edgePair.nodes ↔ v = 1 ∨ v = 0 := by
      show v ∈ [1, 0] ↔ _
      simp
    have hsize : edgePair.size = 2 := rfl
    rw [hmem, hsize]
    omega
  obtain ⟨hops, hrun, hall⟩ := get_all_first_hops_shortest edgePair hnumbered (by decide) hnear
    (show edgePair.size + 32000 < 40000 by decide)
  obtain ⟨⟨f, w, c, hf, ⟨e, he, -, hends⟩, -⟩, -⟩ := hall 0 (by decide) 1 (by decide) (by decide)
  have hone : f = 1 := by
    rw [List.mem_singleton.mp he] at hends
    rcases hends with ⟨-, h⟩ | ⟨-, h⟩
    · exact h.symm
    · exact absurd h (by decide)
  exact ⟨hops, hrun, by rw [hf, hone]; rfl⟩

/-- Three nodes, and an edge of the largest weight there is. -/
def heavyTriangle : Graph :=
  (((((Graph.empty_graph.add_node 0 (by decide)).add_node 1 (by decide)).add_node 2
    (by decide)).add_edge 0 1 1 (by decide) (by decide)).add_edge 0 2 2 (by decide)
    (by decide)).add_edge 1 2 max_int (by decide) (by decide)

theorem heavyTriangle_link {u v w : Nat} (h : heavyTriangle.Link u v w) :
    (u = 1 ∧ v = 2 ∨ u = 2 ∧ v = 1) ∧ (w : Int) = max_int ∨
    (u = 0 ∧ v = 2 ∨ u = 2 ∧ v = 0) ∧ w = 2 ∨ (u = 0 ∧ v = 1 ∨ u = 1 ∧ v = 0) ∧ w = 1 := by
  obtain ⟨e, he, hw, hends⟩ := h
  have he : e ∈ [(⟨1, 2, max_int⟩ : Edge), ⟨0, 2, 2⟩, ⟨0, 1, 1⟩] := he
  simp only [List.mem_cons, List.not_mem_nil, or_false] at he
  rcases he with rfl | rfl | rfl <;> simp only at hw hends <;> omega

/-- The sum wraps around, so that the heavy edge looks like a short cut: node 2 is reached by node 1,
    although it is next to node 0. -/
theorem heavy_edge_taken : heavyTriangle.Numbered ∧
    (∀ e ∈ heavyTriangle.edges, 0 < e.contents ∧ e.contents ≤ max_int) ∧
    (∀ s ∈ heavyTriangle.nodes, ∀ d ∈ heavyTriangle.nodes, ∃ c, Walk heavyTriangle.Link s d c ∧ c < 32000) ∧
    (∃ hops, get_all_first_hops heavyTriangle 10 = some (.ok hops) ∧ (hops 0)[2]? = some 1) ∧
    ¬ ∃ w c, heavyTriangle.Link 0 1 w ∧ Walk heavyTriangle.Link 1 2 c ∧
      IsLeast {c | Walk heavyTriangle.Link 0 2 c} (w + c) := by
  have hlink : heavyTriangle.Link 0 1 1 ∧ heavyTriangle.Link 1 0 1 ∧
      heavyTriangle.Link 0 2 2 ∧ heavyTriangle.Link 2 0 2 := by decide
  obtain ⟨h₀₁, h₁₀, h₀₂, h₂₀⟩ := hlink
  have hnodes : ∀ v ∈ heavyTriangle.nodes, v = 2 ∨ v = 1 ∨ v = 0 := by decide
  refine ⟨fun v => ?_, by decide, fun s hs d hd => ?_, ?_, ?_⟩
  · have hmem : v ∈ heavyTriangle.nodes ↔ v = 2 ∨ v = 1 ∨ v = 0 := by
      show v ∈ [2, 1, 0] ↔ _
      simp
    have hsize : heavyTriangle.size = 3 := rfl
    rw [hmem, hsize]
    omega
  · -- every node is at most two from node 0
    have hto : ∀ v ∈ heavyTriangle.nodes, ∃ c, Walk heavyTriangle.Link v 0 c ∧ c ≤ 2 := by
      intro v hv
      rcases hnodes v hv with rfl | rfl | rfl
      · exact ⟨2, Walk.single h₂₀, by decide⟩
      · exact ⟨1, Walk.single h₁₀, by decide⟩
      · exact ⟨0, Walk.nil 0, by decide⟩
    have hfrom : ∀ v ∈ heavyTriangle.nodes, ∃ c, Walk heavyTriangle.Link 0 v c ∧ c ≤ 2 := by
      intro v hv
      rcases hnodes v hv with rfl | rfl | rfl
      · exact ⟨2, Walk.single h₀₂, by decide⟩
      · exact ⟨1, Walk.single h₀₁, by decide⟩
      · exact ⟨0, Walk.nil 0, by decide⟩
    obtain ⟨c, hwalk, hc⟩ := hto s hs
    obtain ⟨c', hwalk', hc'⟩ := hfrom d hd
    exact ⟨c + c', hwalk.append hwalk', by omega⟩
  · have hrun : (get_all_first_hops heavyTriangle 10).map (fun r => r.toOption.map fun hops => (hops 0)[2]?) =
        some (some (some 1)) := by decide +kernel
    obtain ⟨r, hr, hentry⟩ := Option.map_eq_some_iff.mp hrun
    cases r with
    | error e => cases hentry
    | ok hops => exact ⟨hops, hr, Option.some.inj hentry⟩
  · rintro ⟨w, c, hw, hwalk, hleast⟩
    have hdirect := hleast.2 (Walk.single h₀₂)
    have hmax : (max_int : Int) = 2 ^ 62 - 1 := rfl
    rcases heavyTriangle_link hw with ⟨h, -⟩ | ⟨h, -⟩ | ⟨-, rfl⟩
    · omega
    · omega
    · cases hwalk with
      | cons hedge hrest =>
        rcases heavyTriangle_link hedge with ⟨-, h⟩ | ⟨h, -⟩ | ⟨h, rfl⟩
        · omega
        · omega
        · -- back at node 0, with nothing left to spend
          cases hrest with
          | nil => omega
          | cons hedge' _ =>
            rcases heavyTriangle_link hedge' with ⟨-, h⟩ | ⟨-, h⟩ | ⟨-, h⟩ <;> omega

end Emulab.Dre
