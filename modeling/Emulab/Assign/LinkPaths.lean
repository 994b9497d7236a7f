import Emulab.Assign.LinkFrames
import Emulab.Lib.Trail
import Mathlib.Data.String.Basic

/-! # The paths of resolutions

  The plinks of a resolution are to be a path from the pnode of the vlink's
  source to that of its destination. For direct and intraswitch links they
  are. An interswitch path is followed back from its end and its plinks are
  kept in that order, its switches in the other one.
-/

namespace Emulab.Assign

open Outcome Trail List Option

variable {R : Type}

/-! ## Section 1: What a path is -/

def PGraph.ends (pg : PGraph R) (e : PEdge) : PVertex × PVertex :=
  ((pg.plink e).src, (pg.plink e).dst)

/-- What the parsers and `calculate_switch_MST` make of the switches. -/
structure SwitchFabric (pg : PGraph R) : Prop where
  /-- A switch is attached to itself only. -/
  own : ∀ p, (pg.pnode p).isSwitch = true → (pg.pnode p).switches = [p]
  /-- The mate of a link of the switch fabric is a plink between the same switches. -/
  slink : ∀ a b e, pg.slink a b = some e → e ∈ pg.edges ∧ Joins pg.ends e a b ∧
    (pg.pnode a).isSwitch = true ∧ (pg.pnode b).isSwitch = true
  /-- The predecessors are those of a tree. That its paths are shortest does not matter here. -/
  tree : ∀ a, (pg.pnode a).isSwitch = true → IsPredTree (pg.switchPreds a) pg.slink a pg.numSwitches

/-- The plinks are a walk in the physical graph from one pnode to another, which passes through the
    switches in their order. -/
def RealPath (pg : PGraph R) (info : LinkInfo) (p q : PVertex) : Prop :=
  (∀ e ∈ info.plinks, e ∈ pg.edges) ∧
    ∃ vs, Follows pg.ends p info.plinks vs ∧ arrives p vs = q ∧ info.switches.Sublist (p :: vs)

/-- The ends of the vlink are on the two pnodes, in this order or flipped. -/
def Hosts (env : Env R) (s : State R) (ve : VEdge) (pv destPv : PVertex) (flipped : Bool) : Prop :=
  (s.vnode (env.vg.vlink ve).src).assignment = (if flipped then destPv else pv) ∧
    (s.vnode (env.vg.vlink ve).dst).assignment = (if flipped then pv else destPv)

/-- The pnode of a resolved link's source, and that of its destination. -/
def RealResolution (env : Env R) (s : State R) (ve : VEdge) (info : LinkInfo) : Prop :=
  RealPath env.pg info (s.vnode (env.vg.vlink ve).src).assignment (s.vnode (env.vg.vlink ve).dst).assignment

/-! ## Section 2: The links at the ends -/

variable {pg : PGraph R}

theorem PGraph.joins_otherEnd {p : PVertex} {e : PEdge}
    (h : e ∈ pg.outEdges p) : e ∈ pg.edges ∧ Joins pg.ends e p (pg.otherEnd p e) := by
  obtain ⟨he, hp⟩ := PGraph.mem_outEdges.mp h
  refine ⟨he, ?_⟩
  unfold Joins PGraph.ends PGraph.otherEnd
  by_cases hdst : (pg.plink e).dst = p
  · simp [hdst]
  · rw [if_neg hdst]
    exact Or.inl (by rw [hp.resolve_right hdst])

theorem findBestLinkLoop_mem (env : Env R) (s : State R) (switchPv pv : PVertex) (ve : VEdge)
    (checkSrcIface checkDstIface : Bool) (pes : List PEdge) (best : Option PEdge) (bestUsers : Int)
    {pe : PEdge} (h : (findBestLinkLoop env s switchPv pv ve checkSrcIface checkDstIface pes best
      bestUsers).1 = some pe) : best = some pe ∨ pe ∈ pes ∧ env.pg.otherEnd pv pe = switchPv := by
  induction pes generalizing best bestUsers with
  | nil => exact Or.inl h
  | cons e pes ih =>
    have hnext : ∀ {best bestUsers}, (findBestLinkLoop env s switchPv pv ve checkSrcIface
        checkDstIface pes best bestUsers).1 = some pe →
        best = some pe ∨ pe ∈ e :: pes ∧ env.pg.otherEnd pv pe = switchPv :=
      fun h => (ih _ _ h).imp_right fun hmem => ⟨mem_cons_of_mem _ hmem.1, hmem.2⟩
    unfold findBestLinkLoop at h
    dsimp only at h
    by_cases hother : env.pg.otherEnd pv e = switchPv
    · rw [if_neg (not_not.mpr hother)] at h
      -- where the edge is taken it is the edge of the list
      have htaken : some e = some pe → best = some pe ∨ pe ∈ e :: pes ∧ env.pg.otherEnd pv pe = switchPv := by
        intro heq
        obtain rfl := some.inj heq
        exact Or.inr ⟨mem_cons_self, hother⟩
      split_ifs at h
      · exact hnext h
      · exact hnext h
      · exact htaken h
      · exact hnext h
      · exact (hnext h).elim htaken Or.inr
      · exact hnext h
      · exact hnext h
    · rw [if_pos hother] at h
      exact hnext h

theorem findBestLink_joins {env : Env R} {s : State R} {pv switchPv : PVertex} {ve : VEdge}
    {checkSrcIface checkDstIface : Bool} {pe : PEdge}
    (h : findBestLink env s pv switchPv ve checkSrcIface checkDstIface = some pe) :
    pe ∈ env.pg.edges ∧ Joins env.pg.ends pe pv switchPv := by
  unfold findBestLink at h
  dsimp only at h
  split_ifs at h
  obtain h | ⟨hmem, hother⟩ := findBestLinkLoop_mem _ _ _ _ _ _ _ _ _ _ h
  · cases h
  · obtain ⟨he, hjoins⟩ := PGraph.joins_otherEnd hmem
    exact ⟨he, hother ▸ hjoins⟩

/-- The link from a pnode to a switch, or none if it is the switch. -/
def EndWalk (pg : PGraph R) (p : PVertex) (links : List PEdge) (sw : PVertex) : Prop :=
  p = sw ∧ links = [] ∨ (pg.pnode p).isSwitch = false ∧ ∃ e, links = [e] ∧ e ∈ pg.edges ∧ Joins pg.ends e p sw

theorem endLink_walk {env : Env R} {s : State R} {needed : Bool} {pv sw : PVertex} {ve : VEdge}
    {checkSrcIface checkDstIface : Bool} {links : List PEdge}
    (hneeded : if needed then (env.pg.pnode pv).isSwitch = false else pv = sw)
    (h : endLink env s needed pv sw ve checkSrcIface checkDstIface = some links) : EndWalk env.pg pv links sw := by
  unfold endLink at h
  cases needed with
  | true =>
    obtain ⟨e, he, rfl⟩ := map_eq_some_iff.mp h
    obtain ⟨hmem, hjoins⟩ := findBestLink_joins he
    exact Or.inr ⟨hneeded, e, rfl, hmem, hjoins⟩
  | false => exact Or.inl ⟨hneeded, (some.inj h).symm⟩

theorem EndWalk.isSwitch_of_nil {p sw : PVertex} (h : EndWalk pg p [] sw)
    (hsw : (pg.pnode sw).isSwitch = true) : (pg.pnode p).isSwitch = true := by
  rcases h with ⟨rfl, -⟩ | ⟨-, e, he, -⟩
  · exact hsw
  · cases he

theorem SwitchFabric.switch_cases (h : SwitchFabric pg) {p sw : PVertex}
    (hsw : sw ∈ (pg.pnode p).switches) : p = sw ∨ (pg.pnode p).isSwitch = false := by
  cases hp : (pg.pnode p).isSwitch with
  | false => exact Or.inr rfl
  | true =>
    rw [h.own p hp, mem_singleton] at hsw
    exact Or.inl hsw.symm

theorem SwitchFabric.needed (h : SwitchFabric pg) {p q a b : PVertex}
    (ha : a ∈ (pg.pnode p).switches) (hb : b ∈ (pg.pnode q).switches) :
    if decide (p ≠ a ∧ p ≠ b) then (pg.pnode p).isSwitch = false else p = a := by
  have haswitch := pg.switches_isSwitch p a ha
  have hbswitch := pg.switches_isSwitch q b hb
  rcases h.switch_cases ha with rfl | hp
  · simp
  · have hpa : p ≠ a := by
      rintro rfl
      exact absurd haswitch (by simp [hp])
    have hpb : p ≠ b := by
      rintro rfl
      exact absurd hbswitch (by simp [hp])
    simp [hpa, hpb, hp]

/-! ## Section 3: Paths through the switch fabric -/

theorem interswitchLoop_branch {a b : PVertex} {es : List PEdge}
    {vs : List PVertex} (h : Branch (pg.switchPreds a) pg.slink a b es vs) {fuel : Nat}
    (hfuel : es.length ≤ fuel) (path : List PEdge) (switches : List PVertex) :
    interswitchLoop pg a fuel b path switches = .ok (path ++ es, vs ++ switches) := by
  induction h generalizing fuel path switches with
  | root =>
    unfold interswitchLoop
    rw [if_pos rfl, append_nil]
    rfl
  | step hne he _ ih =>
    cases fuel with
    | zero => cases hfuel
    | succ fuel =>
      unfold interswitchLoop
      rw [if_neg hne]
      dsimp only
      rw [he]
      dsimp only
      rw [ih (Nat.le_of_succ_le_succ hfuel), append_assoc, append_assoc]
      rfl

theorem SwitchFabric.path (h : SwitchFabric pg) {a b : PVertex}
    (ha : (pg.pnode a).isSwitch = true) (hne : a ≠ b) (hb : pg.switchPreds a b ≠ b) :
    ∃ es vs, Branch (pg.switchPreds a) pg.slink a b es vs ∧ vs.Nodup ∧
      findInterswitchPath pg a b = .ok (some (es, vs)) := by
  obtain ⟨es, vs, hbranch, hlength, hnodup⟩ := (h.tree a ha).branch hb hne.symm
  refine ⟨es, vs, hbranch, hnodup, ?_⟩
  unfold findInterswitchPath
  rw [if_neg hb, interswitchLoop_branch hbranch hlength, nil_append, append_nil]
  rfl

/-- What is known of the two end links and the path between them. -/
structure Interswitch (pg : PGraph R) (pv destPv a b : PVertex) (first path second : List PEdge)
    (switches : List PVertex) : Prop where
  fabric : SwitchFabric pg
  ne : a ≠ b
  pnodes_ne : pv ≠ destPv
  src_switch : (pg.pnode a).isSwitch = true
  first : EndWalk pg pv first a
  second : EndWalk pg destPv second b
  branch : Branch (pg.switchPreds a) pg.slink a b path switches
  nodup : switches.Nodup

section

variable {pg : PGraph R} {pv destPv a b p sw : PVertex} {first path second links : List PEdge}
  {switches : List PVertex}

theorem EndWalk.follows (h : EndWalk pg p links sw) : (∀ e ∈ links, e ∈ pg.edges) ∧
    ∃ vs, Follows pg.ends p links vs ∧ arrives p vs = sw ∧
      (p = sw ∧ vs = [] ∨ (pg.pnode p).isSwitch = false ∧ vs = [sw]) := by
  rcases h with ⟨rfl, rfl⟩ | ⟨hp, e, rfl, he, hjoins⟩
  · exact ⟨by simp, [], .nil p, rfl, Or.inl ⟨rfl, rfl⟩⟩
  · exact ⟨by simpa using he, [sw], .single hjoins, rfl, Or.inr ⟨hp, rfl⟩⟩

theorem EndWalk.back (h : EndWalk pg p links sw) : ∃ vs, Follows pg.ends sw links vs ∧ arrives sw vs = p ∧
      (p = sw ∧ vs = [] ∨ (pg.pnode p).isSwitch = false ∧ vs = [p]) := by
  rcases h with ⟨rfl, rfl⟩ | ⟨hp, e, rfl, -, hjoins⟩
  · exact ⟨[], .nil p, rfl, Or.inl ⟨rfl, rfl⟩⟩
  · exact ⟨[p], .single hjoins.symm, rfl, Or.inr ⟨hp, rfl⟩⟩

namespace Interswitch

section

variable (h : Interswitch pg pv destPv a b first path second switches)
include h

theorem edges_mem : ∀ e ∈ path, e ∈ pg.edges := by
  have hlink : ∀ {v es vs}, Branch (pg.switchPreds a) pg.slink a v es vs → ∀ e ∈ es, e ∈ pg.edges := by
    intro v es vs hbranch
    induction hbranch with
    | root => simp
    | step _ he _ ih =>
      intro e hmem
      rcases mem_cons.mp hmem with rfl | hmem
      · exact (h.fabric.slink _ _ _ he).1
      · exact ih e hmem
  exact hlink h.branch

theorem isSwitch : ∀ w ∈ switches, (pg.pnode w).isSwitch = true :=
  h.branch.forall_mem (fun a b e he => (h.fabric.slink a b e he).2.2.1) h.src_switch

theorem joins (u v : PVertex)
    (e : PEdge) (he : pg.slink u v = some e) : Joins pg.ends e u v := (h.fabric.slink u v e he).2.1

/-- Over one link the path is as long as it should be, and its direction does not matter. -/
theorem real_of_adjacent (hadjacent : pg.switchPreds a b = a) :
    RealPath pg ⟨.interswitch, first ++ path ++ second, switches⟩ pv destPv := by
  obtain ⟨hfirst, vs, hto, hat, hvs⟩ := h.first.follows
  obtain ⟨hsecond, -⟩ := h.second.follows
  obtain ⟨ws, hfrom, hend, -⟩ := h.second.back
  refine ⟨?_, ?_⟩
  · intro e he
    rcases mem_append.mp he with he | he
    · rcases mem_append.mp he with he | he
      · exact hfirst e he
      · exact h.edges_mem e he
    · exact hsecond e he
  cases hbranch : h.branch with
  | root => exact absurd rfl h.ne
  | @step _ e es us hne he hrest =>
    rw [hadjacent] at he hrest
    cases hrest with
    | step hself _ _ => exact absurd rfl hself
    | root =>
      have hlink : Follows pg.ends (arrives pv vs) [e] [b] := by
        rw [hat]
        exact .single (h.joins _ _ _ he).symm
      have hlast : Follows pg.ends (arrives pv (vs ++ [b])) second ws := by
        rw [arrives_append]
        exact hfrom
      refine ⟨_, (hto.append hlink).append hlast, ?_, ?_⟩
      · rw [arrives_append, arrives_append]
        exact hend
      · rcases hvs with ⟨rfl, rfl⟩ | ⟨-, rfl⟩ <;> simp

theorem not_real_of_far (hfar : pg.switchPreds a b ≠ a) :
    ¬RealPath pg ⟨.interswitch, first ++ path ++ second, switches⟩ pv destPv := by
  rintro ⟨-, us, hfollows, -⟩
  obtain ⟨-, vs, hto, hat, -⟩ := h.first.follows
  dsimp only at hfollows
  rw [append_assoc] at hfollows
  obtain ⟨ws, -, hws⟩ := hto.after hfollows
  rw [hat] at hws
  exact h.branch.not_follows h.joins h.nodup hfar h.ne.symm hws

/-- In the other direction the path is a walk, but it passes through the switches in reverse. -/
theorem not_real_flipped : ¬RealPath pg ⟨.interswitch, second ++ path ++ first, switches⟩ destPv pv := by
  rintro ⟨-, us, hfollows, -, hsublist⟩
  obtain ⟨-, vs, hto, hat, hvs⟩ := h.second.follows
  obtain ⟨ms, hreverse, hmiddle, hroot⟩ := h.branch.follows h.joins
  obtain ⟨ws, hfrom, -, hws⟩ := h.first.back
  have hpath : Follows pg.ends (arrives destPv vs) path ms := by rwa [hat]
  have hlast : Follows pg.ends (arrives destPv (vs ++ ms)) first ws := by
    rwa [arrives_append, hat, hroot]
  obtain rfl := hfollows.unique ((hto.append hpath).append hlast)
  have hswitch := h.isSwitch
  -- the vertices of the walk: the switches in reverse, and the pnodes that are no switches
  have hvertices : ∃ l r, destPv :: (vs ++ ms ++ ws) = l ++ switches.reverse ++ r ∧
      (l = [] ∨ l = [destPv] ∧ (pg.pnode destPv).isSwitch = false) ∧
      (r = [] ∨ r = [pv] ∧ (pg.pnode pv).isSwitch = false) := by
    have hr : ws = [] ∨ ws = [pv] ∧ (pg.pnode pv).isSwitch = false :=
      hws.imp (fun hw => hw.2) fun hw => hw.symm
    rw [hreverse]
    rcases hvs with ⟨rfl, rfl⟩ | ⟨hdest, rfl⟩
    · exact ⟨[], ws, by simp, Or.inl rfl, hr⟩
    · exact ⟨[destPv], ws, by simp, Or.inr ⟨rfl, hdest⟩, hr⟩
  obtain ⟨l, r, heq, hl, hr⟩ := hvertices
  rw [heq] at hsublist
  have hnodup : (l ++ switches.reverse ++ r).Nodup := by
    have hmiddle : switches.reverse.Nodup := nodup_reverse.mpr h.nodup
    have hnot : ∀ {w}, (pg.pnode w).isSwitch = false → w ∉ switches.reverse := by
      intro w hw hmem
      have := hswitch w (mem_reverse.mp hmem)
      rw [hw] at this
      cases this
    have hne := h.pnodes_ne
    rcases hl with rfl | ⟨rfl, hdest⟩ <;> rcases hr with rfl | ⟨rfl, hpv⟩
    · simpa using h.nodup
    · rw [nil_append, nodup_append]
      refine ⟨hmiddle, nodup_singleton _, ?_⟩
      intro w hw u hu
      rw [mem_singleton.mp hu]
      rintro rfl
      exact hnot hpv hw
    · rw [append_nil, singleton_append, nodup_cons]
      exact ⟨hnot hdest, hmiddle⟩
    · rw [append_assoc, singleton_append, nodup_cons, nodup_append]
      refine ⟨?_, hmiddle, nodup_singleton _, ?_⟩
      · rw [mem_append, mem_singleton, not_or]
        exact ⟨hnot hdest, hne.symm⟩
      · intro w hw u hu
        rw [mem_singleton.mp hu]
        rintro rfl
        exact hnot hpv hw
  obtain ⟨as, has⟩ := h.branch.eq_cons
  obtain ⟨bs, hbs⟩ := h.branch.eq_snoc
  -- the switch of the source and that of the destination are listed in this order
  have hab : [a, b].Sublist switches := by
    cases as with
    | nil =>
      rw [has] at hbs
      obtain rfl | ⟨bs, c, rfl⟩ := bs.eq_nil_or_concat
      · exact absurd (by simpa using hbs) h.ne
      · have hlength := congrArg List.length hbs
        simp at hlength
    | cons c as =>
      have hb : b ∈ c :: as := by
        have hmem : b ∈ a :: c :: as := by rw [← has, hbs]; simp
        exact (mem_cons.mp hmem).resolve_left h.ne.symm
      rw [has]
      exact (singleton_sublist.mpr hb).cons_cons a
  have hba : [b, a].Sublist switches.reverse := by simpa using hab.reverse
  refine not_sublist_swap hnodup h.ne.symm ?_ (hab.trans hsublist)
  exact (hba.trans (sublist_append_right l _)).trans (sublist_append_left _ r)

end

end Interswitch

end

/-! ## Section 4: Resolutions -/

/-- The pnodes can be joined through two different switches, if the vlink may go over the switch fabric:
    both have a link to their switch where they need one, and the fabric connects the switches. -/
structure JoinedThrough (env : Env R) (s : State R) (pv destPv : PVertex) (ve : VEdge)
    (flipped : Bool) (a b : PVertex) : Prop where
  allowed : (env.vg.vlink ve).allowInterswitch = true
  src : a ∈ (env.pg.pnode pv).switches
  dst : b ∈ (env.pg.pnode destPv).switches
  ne : a ≠ b
  first : (endLink env s (decide (pv ≠ a ∧ pv ≠ b)) pv a ve (!flipped) flipped).isSome = true
  second : (endLink env s (decide (destPv ≠ a ∧ destPv ≠ b)) destPv b ve flipped (!flipped)).isSome = true
  connected : env.pg.switchPreds a b ≠ b

/-- The vlink is matched to the interfaces of two switches, which have none. -/
def NoInterface (env : Env R) (pv destPv : PVertex) (ve : VEdge) : Prop :=
  (env.vg.vlink ve).allowInterswitch = true ∧
    (env.vg.vlink ve).adjustToNativeBandwidth = true ∧ (env.pg.pnode pv).isSwitch = true ∧
    (env.pg.pnode destPv).isSwitch = true

section

variable {env : Env R} {s : State R} {pv destPv a b : PVertex} {ve : VEdge} {flipped : Bool}

/-- A second end link is looked for as a first one is. -/
theorem SwitchFabric.needed_swap {pg : PGraph R} (h : SwitchFabric pg) {p q a b : PVertex}
    (ha : a ∈ (pg.pnode p).switches) (hb : b ∈ (pg.pnode q).switches) :
    if decide (q ≠ a ∧ q ≠ b) then (pg.pnode q).isSwitch = false else q = b := by
  have h' := h.needed hb ha
  simp only [and_comm] at h' ⊢
  exact h'

theorem interswitch_of_links (h : SwitchFabric env.pg) (hne : pv ≠ destPv)
    (ha : a ∈ (env.pg.pnode pv).switches) (hb : b ∈ (env.pg.pnode destPv).switches) (hab : a ≠ b)
    {first second path : List PEdge} {switches : List PVertex}
    (hfirst : endLink env s (decide (pv ≠ a ∧ pv ≠ b)) pv a ve (!flipped) flipped = some first)
    (hsecond : endLink env s (decide (destPv ≠ a ∧ destPv ≠ b)) destPv b ve flipped (!flipped) =
      some second) (hpath : findInterswitchPath env.pg a b = .ok (some (path, switches))) :
    env.pg.switchPreds a b ≠ b ∧ Interswitch env.pg pv destPv a b first path second switches := by
  have haswitch := env.pg.switches_isSwitch pv a ha
  have hconnected : env.pg.switchPreds a b ≠ b := by
    intro heq
    unfold findInterswitchPath at hpath
    rw [if_pos heq] at hpath
    cases hpath
  obtain ⟨es, vs, hbranch, hnodup, hfound⟩ := h.path haswitch hab hconnected
  rw [hfound] at hpath
  cases hpath
  exact ⟨hconnected, h, hab, hne, haswitch, endLink_walk (h.needed ha hb) hfirst,
    endLink_walk (h.needed_swap ha hb) hsecond, hbranch, hnodup⟩

theorem direct_real {pe : PEdge} (h : findBestLink env s destPv pv ve true true = some pe) :
    RealPath env.pg ⟨.direct, [pe], []⟩ (if flipped then destPv else pv) (if flipped then pv else destPv) := by
  obtain ⟨he, hjoins⟩ := findBestLink_joins h
  have hmem : ∀ e ∈ [pe], e ∈ env.pg.edges := by simpa using he
  cases flipped
  · exact ⟨hmem, [destPv], .single hjoins.symm, rfl, nil_sublist _⟩
  · exact ⟨hmem, [pv], .single hjoins, rfl, nil_sublist _⟩

/-- From a pnode to a switch and on to another pnode. -/
theorem EndWalk.real {pg : PGraph R} {p q sw : PVertex} {first second : List PEdge}
    (hfirst : EndWalk pg p first sw) (hsecond : EndWalk pg q second sw) :
    RealPath pg ⟨.intraswitch, first ++ second, [sw]⟩ p q := by
  obtain ⟨hmem, vs, hvs, hat, hcases⟩ := hfirst.follows
  obtain ⟨hmem', -⟩ := hsecond.follows
  obtain ⟨us, hus, hend, -⟩ := hsecond.back
  refine ⟨?_, vs ++ us, hvs.append (by rwa [hat]), by rwa [arrives_append, hat], ?_⟩
  · intro e he
    exact (mem_append.mp he).elim (hmem e) (hmem' e)
  · rcases hcases with ⟨rfl, rfl⟩ | ⟨-, rfl⟩ <;> simp

theorem intraswitch_real {sw : PVertex} (hsw : sw ∈ (env.pg.pnode pv).switches) {info : LinkInfo}
    (h : info ∈ intraswitchResolution env s pv destPv ve flipped sw) :
    RealPath env.pg info (if flipped then destPv else pv) (if flipped then pv else destPv) := by
  obtain ⟨-, hpv, hdest, first, second, hfirst, hsecond, rfl⟩ := mem_intraswitchResolution h
  have hswitch := env.pg.switches_isSwitch pv sw hsw
  have hneeded : ∀ {p}, (env.pg.pnode p).isSwitch = false →
      if decide (p ≠ sw) then (env.pg.pnode p).isSwitch = false else p = sw := by
    intro p hp
    have hne : p ≠ sw := by
      rintro rfl
      rw [hp] at hswitch
      cases hswitch
    simp [hne, hp]
  have hfrom := endLink_walk (hneeded hpv) hfirst
  have hto := endLink_walk (hneeded hdest) hsecond
  cases flipped
  · exact hfrom.real hto
  · exact hto.real hfrom

theorem findLinkResolutions_real (h : SwitchFabric env.pg) (hne : pv ≠ destPv)
    (hhosts : Hosts env s ve pv destPv flipped) (hjoined : ∀ a b, JoinedThrough env s pv destPv ve flipped a b →
      flipped = false ∧ env.pg.switchPreds a b = a) :
    Ends Fault.Unmarked (findLinkResolutions env s pv destPv ve flipped) fun infos =>
      ∀ info ∈ infos, RealResolution env s ve info := by
  unfold RealResolution
  rw [hhosts.1, hhosts.2]
  apply findLinkResolutions_forall
  · intro pe hpe
    exact direct_real hpe
  · intro sw hsw info hinfo
    exact intraswitch_real hsw hinfo
  · intro hallowed a ha b hb hab first second path switches hfirst hsecond hpath
    obtain ⟨hconnected, hinter⟩ := interswitch_of_links h hne ha hb hab hfirst hsecond hpath
    obtain ⟨rfl, hadjacent⟩ := hjoined a b
      ⟨hallowed, ha, hb, hab, by rw [hfirst]; rfl, by rw [hsecond]; rfl, hconnected⟩
    exact hinter.real_of_adjacent hadjacent

/-- With both links the path through the fabric is found, and nothing fails unless an interface is
    missing. -/
theorem interswitchResolution_eq (s : State R) (flipped : Bool) (h : SwitchFabric env.pg)
    (hinterface : ¬NoInterface env pv destPv ve) (hallowed : (env.vg.vlink ve).allowInterswitch = true)
    (ha : a ∈ (env.pg.pnode pv).switches) (hb : b ∈ (env.pg.pnode destPv).switches) :
    ∃ infos, interswitchResolution env s pv destPv ve flipped a b = .ok infos ∧
      (JoinedThrough env s pv destPv ve flipped a b → ∃ first second path switches,
        endLink env s (decide (pv ≠ a ∧ pv ≠ b)) pv a ve (!flipped) flipped = some first ∧
        endLink env s (decide (destPv ≠ a ∧ destPv ≠ b)) destPv b ve flipped (!flipped) =
          some second ∧
        findInterswitchPath env.pg a b = .ok (some (path, switches)) ∧
        infos = [⟨.interswitch,
          if flipped then second ++ path ++ first else first ++ path ++ second, switches⟩]) := by
  unfold interswitchResolution
  by_cases hab : a = b
  · rw [if_pos hab]
    exact ⟨[], rfl, fun hjoined => absurd hab hjoined.ne⟩
  rw [if_neg hab]
  dsimp only
  cases hfirst : endLink env s (decide (pv ≠ a ∧ pv ≠ b)) pv a ve (!flipped) flipped with
  | none =>
    refine ⟨[], rfl, fun hjoined => ?_⟩
    have := hjoined.first
    rw [hfirst] at this
    cases this
  | some first =>
    dsimp only
    cases hsecond : endLink env s (decide (destPv ≠ a ∧ destPv ≠ b)) destPv b ve flipped
        (!flipped) with
    | none =>
      refine ⟨[], rfl, fun hjoined => ?_⟩
      have := hjoined.second
      rw [hsecond] at this
      cases this
    | some second =>
      dsimp only
      -- with no link at either end both pnodes are switches
      have hnative : nativeInterface env ve first second = .ok () := by
        unfold nativeInterface
        rw [if_neg]
        rintro ⟨hadjust, rfl, rfl⟩
        have hpv := (endLink_walk (h.needed ha hb) hfirst).isSwitch_of_nil (env.pg.switches_isSwitch pv a ha)
        have hdest := (endLink_walk (h.needed_swap ha hb) hsecond).isSwitch_of_nil
          (env.pg.switches_isSwitch destPv b hb)
        exact hinterface ⟨hallowed, hadjust, hpv, hdest⟩
      rw [hnative]
      by_cases hconnected : env.pg.switchPreds a b = b
      · refine ⟨[], ?_, fun hjoined => absurd hconnected hjoined.connected⟩
        unfold findInterswitchPath
        rw [if_pos hconnected]
        rfl
      · have haswitch := env.pg.switches_isSwitch pv a ha
        obtain ⟨path, switches, -, -, hpath⟩ := h.path haswitch hab hconnected
        rw [hpath]
        exact ⟨_, rfl, fun _ => ⟨first, second, path, switches, rfl, rfl, rfl, rfl⟩⟩

theorem findLinkResolutions_noInterface (h : SwitchFabric env.pg) (hne : pv ≠ destPv)
    (hinterface : NoInterface env pv destPv ve) :
    findLinkResolutions env s pv destPv ve flipped = .error .nullPointer := by
  obtain ⟨hallowed, hadjust, hpv, hdest⟩ := hinterface
  unfold findLinkResolutions interswitchResolutions
  rw [if_pos hallowed, h.own pv hpv, h.own destPv hdest]
  simp [List.product, interswitchResolution, hne, endLink, nativeInterface, hadjust]
  rfl

/-- All resolutions that are returned are real paths if and only if none of them goes flipped, or
    over more than one link, through the switch fabric. -/
theorem findLinkResolutions_real_iff (h : SwitchFabric env.pg) (hne : pv ≠ destPv)
    (hhosts : Hosts env s ve pv destPv flipped) :
    (∀ infos, findLinkResolutions env s pv destPv ve flipped = .ok infos →
      ∀ info ∈ infos, RealResolution env s ve info) ↔
    NoInterface env pv destPv ve ∨ ∀ a b, JoinedThrough env s pv destPv ve flipped a b →
      flipped = false ∧ env.pg.switchPreds a b = a := by
  constructor
  · intro hreal
    by_cases hinterface : NoInterface env pv destPv ve
    · exact Or.inl hinterface
    refine Or.inr fun a b hjoined => ?_
    have hallowed := hjoined.allowed
    -- nothing fails, so the path between these switches is returned
    obtain ⟨infos, hinfos, hmem⟩ : ∃ infos, findLinkResolutions env s pv destPv ve flipped = .ok infos ∧
        ∀ found, interswitchResolution env s pv destPv ve flipped a b = .ok found →
          ∀ info ∈ found, info ∈ infos := by
      unfold findLinkResolutions interswitchResolutions
      rw [if_pos hallowed]
      rcases mapM_cases (fun sws : PVertex × PVertex =>
          interswitchResolution env s pv destPv ve flipped sws.1 sws.2)
          ((env.pg.pnode pv).switches.product (env.pg.pnode destPv).switches) with
        ⟨ys, hys, -, hto, -⟩ | ⟨x, hx, e, hfail, -⟩
      · rw [hys]
        refine ⟨_, rfl, fun found hfound info hinfo => ?_⟩
        obtain ⟨y, hy, hxy⟩ := hto (a, b) (pair_mem_product.mpr ⟨hjoined.src, hjoined.dst⟩)
        dsimp only at hxy
        rw [hfound] at hxy
        obtain rfl := Except.ok.inj hxy
        exact mem_append_right _ (mem_flatten.mpr ⟨found, hy, hinfo⟩)
      · obtain ⟨hsrc, hdst⟩ := pair_mem_product.mp hx
        obtain ⟨found, hfound, -⟩ := interswitchResolution_eq s flipped h hinterface
          hallowed hsrc hdst
        rw [hfound] at hfail
        cases hfail
    obtain ⟨found, hfound, hspec⟩ := interswitchResolution_eq s flipped h hinterface hallowed
      hjoined.src hjoined.dst
    obtain ⟨first, second, path, switches, hfirst, hsecond, hpath, rfl⟩ := hspec hjoined
    have hinfo := hreal infos hinfos _ (hmem _ hfound _ mem_cons_self)
    obtain ⟨-, hinter⟩ := interswitch_of_links h hne hjoined.src hjoined.dst hjoined.ne hfirst
      hsecond hpath
    unfold RealResolution at hinfo
    rw [hhosts.1, hhosts.2] at hinfo
    cases flipped with
    | true => exact absurd hinfo hinter.not_real_flipped
    | false => exact ⟨rfl, by_contra fun hfar => hinter.not_real_of_far hfar hinfo⟩
  · rintro (hinterface | hjoined) infos hinfos
    · rw [findLinkResolutions_noInterface h hne hinterface] at hinfos
      cases hinfos
    · exact (findLinkResolutions_real h hne hhosts hjoined).of_ok hinfos

end

/-! ## Section 5: Three switches in a line -/

/-- Three switches in a line, and a node at either end. -/
def switchLine : Env ℚ where
  vg :=
    { vertices := [1, 2]
      edges := [1]
      vnode := fun v =>
        { name := if v = 1 then "a" else "b", type := "pc", typecount := 1, vclass := none,
          desires := [], disallowTrivialMix := false, subnodeOf := none, subnodes := [] }
      vlink := fun _ =>
        { src := 1, dst := 2, type := "ethernet", bandwidth := 100,
          adjustToNativeBandwidth := false, fixSrcIface := false, srcIface := "",
          fixDstIface := false, dstIface := "", emulated := false, allowTrivial := false,
          allowInterswitch := true }
      vertices_nodup := nodup_one_two
      edges_nodup := nodup_one
      src_mem := src_mem_one_two
      dst_mem := dst_mem_one_two }
  pg :=
    { edges := [1, 2, 3, 4]
      pnode := fun p =>
        { name := if p = 4 then "pc4" else if p = 5 then "pc5" else "cisco",
          types := if p ∈ [1, 2, 3] then [("switch", ⟨1, false⟩)] else [("pc", ⟨1, false⟩)],
          typeList := if p ∈ [1, 2, 3] then [("switch", 1)] else [("pc", 1)], features := [],
          switches := if p ∈ [1, 2, 3] then [p] else if p = 4 then [1] else if p = 5 then [3] else [],
          isSwitch := decide (p ∈ [1, 2, 3]), trivialBw := 0, subnodeOf := none, myClass := none,
          myOwnClass := none }
      plink := fun e =>
        { src := if e = 1 then 4 else e - 1, dst := if e = 4 then 5 else e,
          srcnode := if e = 1 then "pc4" else "cisco", srciface := "eth0", dstiface := "eth0",
          isType := if e = 2 ∨ e = 3 then .interswitch else .normal, types := ["ethernet"],
          bandwidth := 100, fixends := false }
      slink := fun a b =>
        if a = 1 ∧ b = 2 ∨ a = 2 ∧ b = 1 then some 2
        else if a = 2 ∧ b = 3 ∨ a = 3 ∧ b = 2 then some 3 else none
      switchPreds := fun a b =>
        if b ∈ [1, 2, 3] then if a < b then b - 1 else if b < a then b + 1 else b else b
      numSwitches := 3
      switches_isSwitch := by
        intro p q hq
        by_cases hp : p ∈ [1, 2, 3]
        · simp only [hp, if_true, mem_singleton] at hq
          simpa [hq] using hp
        · simp only [hp, if_false] at hq
          split_ifs at hq <;> simp_all
      slink_interswitch := by
        intro a b e h
        split_ifs at h <;> cases h <;> rfl }
  opts := ⟨true, false, false, false, false, false⟩
  score := scoreConstants fun x _ => x
  feature := fun _ => ⟨false, false, false, false, false⟩
  ptypeMaxUsers := fun _ => -1
  pclass := fun _ => { usedMembers := 0, disabled := false, members := [] }
  vclass := fun _ => { members := [], weight := 1, score := 0, dominant := "" }
  vclass_keys_nodup := fun _ => nodup_nil
  vclass_members_zero := noMembers
  strLt := fun a b => decide (a < b)
  strLt_asymm := string_lt_asymm
  strLt_total := string_lt_total
  hashOrder := id
  hashOrder_perm := id_perm

/-- The ends of the vlink are on the first node and on the given pnode. -/
def hostedOn (p : PVertex) : State ℚ :=
  { State.parsed switchLine with
    vnode := fun v => { type := "pc", assigned := true, assignment := if v = 1 then 4 else p } }

theorem switchLine_fabric : SwitchFabric switchLine.pg where
  own := by
    intro p hp
    have hmem : p ∈ [1, 2, 3] := of_decide_eq_true hp
    show (if p ∈ [1, 2, 3] then [p] else _) = [p]
    rw [if_pos hmem]
  slink := by
    intro a b e h
    change (if a = 1 ∧ b = 2 ∨ a = 2 ∧ b = 1 then some 2
      else if a = 2 ∧ b = 3 ∨ a = 3 ∧ b = 2 then some 3 else none) = some e at h
    split_ifs at h with h₁ h₂
    · obtain rfl := some.inj h
      rcases h₁ with ⟨rfl, rfl⟩ | ⟨rfl, rfl⟩ <;> decide
    · obtain rfl := some.inj h
      rcases h₂ with ⟨rfl, rfl⟩ | ⟨rfl, rfl⟩ <;> decide
  tree := by
    intro a ha
    have hmem : a ∈ [1, 2, 3] := of_decide_eq_true ha
    refine ⟨fun b => (a - b) + (b - a), fun v hne hv => ?_⟩
    have hv' : v ∈ [1, 2, 3] := by
      by_contra hnot
      exact hv (if_neg hnot)
    fin_cases hmem <;> fin_cases hv' <;> 
      first
        | exact absurd rfl hne
        | exact ⟨⟨_, rfl⟩, by decide⟩

/-- The links of the path are listed from its end. -/
theorem switchLine_path : SwitchFabric switchLine.pg ∧ Hosts switchLine (hostedOn 5) 1 4 5 false ∧
      findLinkResolutions switchLine (hostedOn 5) 4 5 1 false = .ok [⟨.interswitch, [1, 3, 2, 4], [1, 2, 3]⟩] ∧
      ¬RealResolution switchLine (hostedOn 5) 1 ⟨.interswitch, [1, 3, 2, 4], [1, 2, 3]⟩ := by
  refine ⟨switchLine_fabric, ⟨rfl, rfl⟩, rfl, ?_⟩
  rintro ⟨-, vs, hfollows, -⟩
  cases hfollows with
  | @cons _ q _ _ _ hfirst hrest =>
    -- the first link leads to the first switch
    obtain rfl : q = 1 := hfirst.unique (by decide : Joins switchLine.pg.ends 1 4 1)
    cases hrest with
    | cons hsecond _ =>
      have hjoins : Joins switchLine.pg.ends 3 2 3 := by decide
      exact absurd (hjoins.end_cases hsecond) (by decide)

/-- From the node to the second switch there is only one link of the fabric on the way. -/
theorem findLinkResolutions_real_adjacent : SwitchFabric switchLine.pg ∧
    ∀ infos, findLinkResolutions switchLine (hostedOn 2) 4 2 1 false = .ok infos →
      ∀ info ∈ infos, RealResolution switchLine (hostedOn 2) 1 info := by
  refine ⟨switchLine_fabric,
    (findLinkResolutions_real_iff switchLine_fabric (by decide) ⟨rfl, rfl⟩).mpr (Or.inr ?_)⟩
  intro a b hjoined
  have ha := hjoined.src
  have hb := hjoined.dst
  obtain rfl : a = 1 := mem_singleton.mp ha
  obtain rfl : b = 2 := mem_singleton.mp hb
  exact ⟨rfl, rfl⟩

end Emulab.Assign
